import QCap.Text
import QCap.WriteLog
import Mathlib.Data.List.AList
import Mathlib.Data.List.Sort
import Mathlib.Data.String.Basic
import Mathlib.Data.List.Infix
import Mathlib.Data.List.Induction
import Mathlib.Data.List.Lex

/-!
# Relative paths and directory trees

Unix rules of `std::path`: components, the check of `validate_relative_path`, and the
directory tree below a root that `create_dir_all` and `fs::write` change. A tree carries
its own well-formedness, so a file never has a file above it. Symbolic links, size limits
of names and device errors are outside the model.
-/
namespace QCap.PathTree

open QCap.Text

inductive Component where
  | rootDir
  | curDir
  | parentDir
  | normal (name : String)
  deriving DecidableEq, Repr

/-- A segment between slashes. Only a leading `.` is kept as a component. -/
def toComponent (leading : Bool) (segment : String) : Option Component :=
  if segment = "" then none
  else if segment = "." then if leading then some .curDir else none
  else if segment = ".." then some .parentDir
  else some (.normal segment)

def components (path : String) : List Component :=
  match splitOn path '/' with
  | [] => []
  | first :: rest =>
    (if startsWith path "/" then [.rootDir] else (toComponent true first).toList) ++
      rest.filterMap (toComponent false)

def isAbsolute (path : String) : Bool := startsWith path "/"

def Component.escapes : Component → Bool
  | .rootDir | .parentDir => true
  | .curDir | .normal _ => false

def validateRelativePath (rel : String) : Result Unit :=
  if isAbsolute rel || rel = "" then .error (.message ("unsafe payload path: " ++ rel))
  else if (components rel).any Component.escapes then
    .error (.message ("unsafe payload path: " ++ rel))
  else .ok ()

/-- A location below a root, as the names that lead to it. -/
abbrev RelPath := List String

def Component.name? : Component → Option String
  | .normal name => some name
  | _ => none

/-- Where `root.join(rel)` points when `rel` is relative and has no `..`. -/
def destination (rel : String) : RelPath := (components rel).filterMap Component.name?

/-- A trailing slash or dot names a directory: `open` for writing then fails. -/
def endsInName (rel : String) : Bool :=
  match (splitOn rel '/').getLast? with
  | some last => last != "" && last != "."
  | none => false

def pathString (p : RelPath) : String := joinWith '/' p

/-- A name that a Unix directory entry can have. -/
def FileName (name : String) : Prop :=
  name ≠ "" ∧ name ≠ "." ∧ name ≠ ".." ∧ Free '/' name ∧ Free '\x00' name

instance (name : String) : Decidable (FileName name) :=
  inferInstanceAs (Decidable (_ ∧ _ ∧ _ ∧ _ ∧ _))

theorem toComponent_fileName {name : String} (h : FileName name) (leading : Bool) :
    toComponent leading name = some (.normal name) := by
  simp [toComponent, h.1, h.2.1, h.2.2.1]

theorem splitOn_pathString {p : RelPath} (hne : p ≠ []) (h : ∀ n ∈ p, FileName n) :
    splitOn (pathString p) '/' = p :=
  splitOn_joinWith hne fun n hn => (h n hn).2.2.2.1

theorem pathString_injective {p q : RelPath} (hp : p ≠ []) (hq : q ≠ [])
    (hps : ∀ n ∈ p, FileName n) (hqs : ∀ n ∈ q, FileName n)
    (h : pathString p = pathString q) : p = q := by
  rw [← splitOn_pathString hp hps, h, splitOn_pathString hq hqs]

theorem pathString_relative {p : RelPath} (hne : p ≠ []) (h : ∀ n ∈ p, FileName n) :
    startsWith (pathString p) "/" = false := by
  by_contra hs
  rw [Bool.not_eq_false] at hs
  obtain ⟨t, ht⟩ := startsWith_iff.mp hs
  have hsplit := splitOn_pathString hne h
  rw [ht] at hsplit
  simp [splitOn, String.toList_append] at hsplit
  obtain ⟨first, rest, rfl⟩ := List.exists_cons_of_ne_nil hne
  exact (h first (by simp)).1 (by simpa using (List.cons.inj hsplit).1.symm)

/-- The components of a portable path are its names: nothing is dropped or rewritten. -/
theorem components_pathString {p : RelPath} (hne : p ≠ []) (h : ∀ n ∈ p, FileName n) :
    components (pathString p) = p.map .normal := by
  obtain ⟨first, rest, rfl⟩ := List.exists_cons_of_ne_nil hne
  have hrest : rest.filterMap (toComponent false) = rest.map .normal := by
    rw [← List.filterMap_eq_map]
    apply List.filterMap_congr
    intro n hn
    exact toComponent_fileName (h n (by simp [hn])) false
  rw [components, splitOn_pathString hne h, pathString_relative hne h]
  simp [toComponent_fileName (h first (by simp)), hrest]

theorem destination_pathString {p : RelPath} (hne : p ≠ []) (h : ∀ n ∈ p, FileName n) :
    destination (pathString p) = p := by
  rw [destination, components_pathString hne h, List.filterMap_map]
  simp [Function.comp_def, Component.name?]

theorem endsInName_pathString {p : RelPath} (hne : p ≠ []) (h : ∀ n ∈ p, FileName n) :
    endsInName (pathString p) = true := by
  rw [endsInName, splitOn_pathString hne h, List.getLast?_eq_some_getLast hne]
  have := h _ (List.getLast_mem hne)
  simp [this.1, this.2.1]

theorem validate_pathString {p : RelPath} (hne : p ≠ []) (h : ∀ n ∈ p, FileName n) :
    validateRelativePath (pathString p) = .ok () := by
  have hs := splitOn_pathString hne h
  have hempty : pathString p ≠ "" := by
    intro he
    obtain ⟨first, rest, rfl⟩ := List.exists_cons_of_ne_nil hne
    rw [he] at hs
    exact (h first (by simp)).1 (List.cons.inj (by simpa [splitOn] using hs)).1.symm
  have hesc : (p.map Component.normal).any Component.escapes = false := by
    simp [Component.escapes]
  simp [validateRelativePath, isAbsolute, pathString_relative hne h, hempty,
    components_pathString hne h, hesc]

theorem getLast?_pathString {p : RelPath} (hne : p ≠ []) (h : ∀ n ∈ p, FileName n) :
    ∃ n ∈ p, ∃ c ∈ n.toList, (pathString p).toList.getLast? = some c := by
  induction p with
  | nil => exact absurd rfl hne
  | cons n p ih =>
    cases p with
    | nil =>
      have hn : n.toList ≠ [] := fun he => (h n (by simp)).1 (String.toList_eq_nil_iff.mp he)
      refine ⟨n, by simp, n.toList.getLast hn, List.getLast_mem hn, ?_⟩
      rw [pathString, joinWith_singleton, List.getLast?_eq_some_getLast hn]
    | cons m p =>
      obtain ⟨k, hk, c, hc, hl⟩ := ih (by simp) fun x hx => h x (List.mem_cons_of_mem _ hx)
      refine ⟨k, List.mem_cons_of_mem _ hk, c, hc, ?_⟩
      rw [pathString, joinWith_cons_cons, String.toList_append, List.getLast?_append]
      rw [pathString] at hl
      rw [hl, Option.some_or]

/-- What lies below a root: directories and regular files, each below a directory. -/
structure Tree where
  dirs : List RelPath
  files : AList fun _ : RelPath => Bytes
  names : ∀ p, p ∈ dirs ∨ p ∈ files → ∀ n ∈ p, FileName n
  parents : ∀ p, p ∈ dirs ∨ p ∈ files → p.dropLast = [] ∨ p.dropLast ∈ dirs
  disjoint : ∀ p ∈ dirs, p ∉ files
  root_directory : [] ∉ files

def Tree.empty : Tree where
  dirs := []
  files := ∅
  names := by simp
  parents := by simp
  disjoint := by simp
  root_directory := by simp

def Tree.read (t : Tree) (p : RelPath) : Option Bytes := t.files.lookup p

theorem Tree.mem_files {t : Tree} {p : RelPath} : p ∈ t.files ↔ ∃ b, t.read p = some b := by
  rw [← AList.lookup_isSome, Tree.read, Option.isSome_iff_exists]

@[simp] theorem Tree.read_empty (p : RelPath) : Tree.empty.read p = none :=
  AList.lookup_empty p

theorem mem_inits_dropLast {p q : RelPath} (h : q ∈ p.inits) : q.dropLast ∈ p.inits := by
  rw [List.mem_inits] at h ⊢
  exact (List.dropLast_prefix q).trans h

/-- `fs::create_dir_all`: nothing is created when a file stands in the way. A name that is
no file name here is one with a NUL, which the system call wrapper refuses. -/
def Tree.createDirAll (t : Tree) (p : RelPath) : Result Tree :=
  if hn : ∀ n ∈ p, FileName n then
    if hb : ∃ q ∈ p.inits, q ∈ t.files then .error .fileSystem
    else .ok
      { t with
        dirs := p.inits ++ t.dirs
        names := by
          intro q hq n hm
          rw [List.mem_append, List.mem_inits, or_assoc] at hq
          rcases hq with hq | hq
          · exact hn n (hq.subset hm)
          · exact t.names q hq n hm
        parents := by
          intro q hq
          rw [List.mem_append, or_assoc] at hq
          rcases hq with hq | hq
          · exact Or.inr (List.mem_append_left _ (mem_inits_dropLast hq))
          · exact (t.parents q hq).imp_right (List.mem_append_right _)
        disjoint := by
          intro q hq hf
          rcases List.mem_append.mp hq with hq | hq
          · exact hb ⟨q, hq, hf⟩
          · exact t.disjoint q hq hf }
  else .error .fileSystem

def Tree.write (t : Tree) (p : RelPath) (bytes : Bytes) : Result Tree :=
  if h : p ≠ [] ∧ (∀ n ∈ p, FileName n) ∧ (p.dropLast = [] ∨ p.dropLast ∈ t.dirs) ∧
      p ∉ t.dirs then
    .ok
      { t with
        files := t.files.insert p bytes
        names := by
          intro q hq
          rw [AList.mem_insert, or_left_comm] at hq
          rcases hq with rfl | hq
          · exact h.2.1
          · exact t.names q hq
        parents := by
          intro q hq
          rw [AList.mem_insert, or_left_comm] at hq
          rcases hq with rfl | hq
          · exact h.2.2.1
          · exact t.parents q hq
        disjoint := by
          intro q hq hf
          rcases (AList.mem_insert _).mp hf with rfl | hf
          · exact h.2.2.2 hq
          · exact t.disjoint q hq hf
        root_directory := by
          intro hf
          rcases (AList.mem_insert _).mp hf with hf | hf
          · exact h.1 hf.symm
          · exact t.root_directory hf }
  else .error .fileSystem

/-- `create_dir_all(dest.parent())` and `fs::write(dest)` for `dest = root.join(rel)`. The
second component is the tree that is left behind, also after an error. -/
def writeUnder (t : Tree) (rel : String) (bytes : Bytes) : Result Unit × Tree :=
  match t.createDirAll (destination rel).dropLast with
  | .error e => (.error e, t)
  | .ok t' =>
    if endsInName rel then
      match t'.write (destination rel) bytes with
      | .error e => (.error e, t')
      | .ok t'' => (.ok (), t'')
    else (.error .fileSystem, t')

def writeSafe (root : Tree) (rel : String) (bytes : Bytes) : Result Unit × Tree :=
  match validateRelativePath rel with
  | .error e => (.error e, root)
  | .ok () => writeUnder root rel bytes

/-- What `create_dir_all` demands of the directories on the way. -/
def Tree.Creatable (t : Tree) (p : RelPath) : Prop :=
  (∀ n ∈ p, FileName n) ∧ ∀ q ∈ p.inits, q ∉ t.files

/-- What `Tree.write` demands of its destination. -/
def Writable (t : Tree) (p : RelPath) : Prop :=
  p ≠ [] ∧ (∀ n ∈ p, FileName n) ∧ (p.dropLast = [] ∨ p.dropLast ∈ t.dirs) ∧ p ∉ t.dirs

/-- Nothing in the way: no file above the destination and no directory at it. -/
def Tree.Clear (t : Tree) (p : RelPath) : Prop :=
  (∀ q ∈ p.dropLast.inits, q ∉ t.files) ∧ p ∉ t.dirs

structure Tree.Receives (t : Tree) (rel : String) : Prop where
  named : endsInName rel = true
  nonempty : destination rel ≠ []
  names : ∀ n ∈ destination rel, FileName n
  clear : t.Clear (destination rel)

theorem createDirAll_cases (t : Tree) (p : RelPath) :
    (t.Creatable p ∧ ∃ t', t.createDirAll p = .ok t' ∧ t'.files = t.files ∧
      t'.dirs = p.inits ++ t.dirs) ∨
    (¬ t.Creatable p ∧ t.createDirAll p = .error .fileSystem) := by
  by_cases hn : ∀ n ∈ p, FileName n
  · by_cases hb : ∃ q ∈ p.inits, q ∈ t.files
    · obtain ⟨q, hq, hf⟩ := hb
      right
      refine ⟨fun hc => hc.2 q hq hf, ?_⟩
      rw [Tree.createDirAll, dif_pos hn, dif_pos ⟨q, hq, hf⟩]
    · left
      refine ⟨⟨hn, fun q hq hf => hb ⟨q, hq, hf⟩⟩, ?_⟩
      rw [Tree.createDirAll, dif_pos hn, dif_neg hb]
      exact ⟨_, rfl, rfl, rfl⟩
  · right
    refine ⟨fun hc => hn hc.1, ?_⟩
    rw [Tree.createDirAll, dif_neg hn]

theorem write_cases (t : Tree) (p : RelPath) (bytes : Bytes) :
    (Writable t p ∧ ∃ t', t.write p bytes = .ok t' ∧ t'.files = t.files.insert p bytes ∧
      t'.dirs = t.dirs) ∨
    (¬ Writable t p ∧ t.write p bytes = .error .fileSystem) := by
  rw [Tree.write]
  split
  · rename_i h
    exact Or.inl ⟨h, _, rfl, rfl, rfl⟩
  · rename_i h
    exact Or.inr ⟨h, rfl⟩

theorem Tree.Receives.creatable {t : Tree} {rel : String} (h : t.Receives rel) :
    t.Creatable (destination rel).dropLast :=
  ⟨fun n hm => h.names n (List.mem_of_mem_dropLast hm), h.clear.1⟩

theorem Tree.Receives.writable {t t₁ : Tree} {rel : String} (h : t.Receives rel)
    (hd : t₁.dirs = (destination rel).dropLast.inits ++ t.dirs) :
    Writable t₁ (destination rel) := by
  have hself : (destination rel).dropLast ∈ (destination rel).dropLast.inits := by
    simp [List.mem_inits]
  have hlong : destination rel ∉ (destination rel).dropLast.inits := by
    intro hm
    have hle := ((List.mem_inits _ _).mp hm).length_le
    have hpos := List.length_pos_iff.mpr h.nonempty
    rw [List.length_dropLast] at hle
    omega
  refine ⟨h.nonempty, h.names, Or.inr ?_, ?_⟩
  · rw [hd]
    exact List.mem_append_left _ hself
  · rw [hd]
    intro hm
    rcases List.mem_append.mp hm with hm | hm
    · exact hlong hm
    · exact h.clear.2 hm

theorem writeUnder_cases (t : Tree) (rel : String) (b : Bytes) :
    (t.Receives rel ∧ ∃ t', writeUnder t rel b = (.ok (), t') ∧
      t'.files = t.files.insert (destination rel) b ∧
      t'.dirs = (destination rel).dropLast.inits ++ t.dirs) ∨
    (¬ t.Receives rel ∧ ∃ t', writeUnder t rel b = (.error .fileSystem, t') ∧
      t'.files = t.files) := by
  rw [writeUnder]
  rcases createDirAll_cases t (destination rel).dropLast with ⟨hc, t₁, h₁, hf₁, hd₁⟩ | ⟨hc, h₁⟩
  · rw [h₁]
    cases hend : endsInName rel with
    | false =>
      right
      refine ⟨fun h => ?_, t₁, rfl, hf₁⟩
      cases hend.symm.trans h.named
    | true =>
      rcases write_cases t₁ (destination rel) b with ⟨hw, t₂, h₂, hf₂, hd₂⟩ | ⟨hw, h₂⟩
      · left
        simp only [h₂, if_true]
        refine ⟨⟨hend, hw.1, hw.2.1, hc.2, fun hm => ?_⟩, t₂, rfl, by rw [hf₂, hf₁],
          by rw [hd₂, hd₁]⟩
        apply hw.2.2.2
        rw [hd₁]
        exact List.mem_append_right _ hm
      · right
        simp only [h₂, if_true]
        exact ⟨fun h => hw (h.writable hd₁), t₁, rfl, hf₁⟩
  · right
    rw [h₁]
    exact ⟨fun h => hc h.creatable, t, rfl, rfl⟩

/-- A write that succeeds changes its destination and no other file. -/
theorem writeUnder_ok {t t' : Tree} {rel : String} {b : Bytes}
    (h : writeUnder t rel b = (.ok (), t')) :
    t'.files = t.files.insert (destination rel) b ∧
      t'.dirs = (destination rel).dropLast.inits ++ t.dirs := by
  rcases writeUnder_cases t rel b with ⟨-, t'', h', hf, hd⟩ | ⟨-, t'', h', -⟩
  · cases h'.symm.trans h
    exact ⟨hf, hd⟩
  · cases h'.symm.trans h

theorem writeUnder_error {t t' : Tree} {rel : String} {b : Bytes} {e : Error}
    (h : writeUnder t rel b = (.error e, t')) : t'.files = t.files := by
  rcases writeUnder_cases t rel b with ⟨-, t'', h', -, -⟩ | ⟨-, t'', h', hf⟩
  · cases h'.symm.trans h
  · cases h'.symm.trans h
    exact hf

theorem writeUnder_found {t t' : Tree} {rel : String} {b : Bytes}
    (h : writeUnder t rel b = (.ok (), t')) : t.Receives rel := by
  rcases writeUnder_cases t rel b with ⟨hr, -⟩ | ⟨-, t'', h', -⟩
  · exact hr
  · cases h'.symm.trans h

theorem Tree.Receives.write {t : Tree} {rel : String} (hr : t.Receives rel) (b : Bytes) :
    ∃ t', writeUnder t rel b = (.ok (), t') := by
  rcases writeUnder_cases t rel b with ⟨-, t', h, -, -⟩ | ⟨hn, -⟩
  · exact ⟨t', h⟩
  · exact absurd hr hn

theorem writeUnder_clear {t : Tree} {p : RelPath} (b : Bytes) (hne : p ≠ [])
    (hn : ∀ n ∈ p, FileName n) (hc : t.Clear p) :
    ∃ t', writeUnder t (pathString p) b = (.ok (), t') := by
  have hd := destination_pathString hne hn
  have hr : t.Receives (pathString p) :=
    ⟨endsInName_pathString hne hn, hd.symm ▸ hne, hd.symm ▸ hn, hd.symm ▸ hc⟩
  exact hr.write b

theorem writeSafe_ok {t t' : Tree} {rel : String} {b : Bytes}
    (h : writeSafe t rel b = (.ok (), t')) :
    validateRelativePath rel = .ok () ∧ writeUnder t rel b = (.ok (), t') := by
  unfold writeSafe at h
  split at h
  · cases h
  · rename_i hv; exact ⟨hv, h⟩

theorem writeSafe_error {t t' : Tree} {rel : String} {b : Bytes} {e : Error}
    (h : writeSafe t rel b = (.error e, t')) : t'.files = t.files := by
  unfold writeSafe at h
  split at h
  · cases h; rfl
  · exact writeUnder_error h

theorem writeUnder_read {t t' : Tree} {rel : String} {b : Bytes}
    (h : writeUnder t rel b = (.ok (), t')) (p : RelPath) :
    t'.read p = if destination rel = p then some b else t.read p := by
  have hf := (writeUnder_ok h).1
  rw [Tree.read, hf, Tree.read]
  by_cases hp : destination rel = p
  · rw [if_pos hp, hp, AList.lookup_insert]
  · rw [if_neg hp, AList.lookup_insert_ne (Ne.symm hp)]

abbrev FileWrite := String × Bytes

def Wrote : List FileWrite → Tree → Tree → Prop
  | [], t, t' => t' = t
  | w :: rest, t, t' => ∃ m, writeUnder t w.1 w.2 = (.ok (), m) ∧ Wrote rest m t'

/-- What the last write for a location left there. -/
def lastWrite (writes : List FileWrite) (p : RelPath) : Option Bytes :=
  WriteLog.last (fun w => destination w.1) (fun w => w.2) writes p

/-- After the writes a location holds what was last written to it. -/
theorem wrote_read {writes : List FileWrite} {t t' : Tree} (h : Wrote writes t t')
    (p : RelPath) : t'.read p = (lastWrite writes p).or (t.read p) := by
  induction writes generalizing t with
  | nil => simp [lastWrite, show t' = t from h]
  | cons w rest ih =>
    obtain ⟨m, hm, hr⟩ := h
    rw [ih hr, writeUnder_read hm]
    simp only [lastWrite, WriteLog.last]
    cases WriteLog.last (fun w => destination w.1) (fun w => w.2) rest p with
    | some v => rfl
    | none => by_cases hp : destination w.1 = p <;> simp [hp]

/-- All that `u` holds lies at or above files of `t`. -/
structure Tree.Within (u t : Tree) : Prop where
  files_subset : ∀ p ∈ u.files, p ∈ t.files
  dirs_above : ∀ d ∈ u.dirs, ∃ p ∈ t.files, d <+: p.dropLast

theorem Tree.empty_within (t : Tree) : Tree.empty.Within t where
  files_subset := by intro p hp; simp [Tree.mem_files] at hp
  dirs_above := by intro d hd; cases hd

/-- `walk_files`: the regular files, in `PathBuf` order, which compares components.
The order in which the directory walk yields them is the order of the association list. -/
def Tree.walkFiles (t : Tree) : List RelPath := t.files.keys.insertionSort (· ≤ ·)

theorem Tree.mem_walkFiles {t : Tree} {p : RelPath} : p ∈ t.walkFiles ↔ p ∈ t.files := by
  rw [Tree.walkFiles, List.mem_insertionSort, AList.mem_keys]

theorem Tree.walkFiles_nodup (t : Tree) : t.walkFiles.Nodup :=
  (List.perm_insertionSort _ _).nodup_iff.mpr t.files.keys_nodup

theorem Tree.walkFiles_congr {t u : Tree} (h : ∀ p, p ∈ t.files ↔ p ∈ u.files) :
    t.walkFiles = u.walkFiles := by
  have hp : t.files.keys.Perm u.files.keys :=
    (List.perm_ext_iff_of_nodup t.files.keys_nodup u.files.keys_nodup).mpr fun p => by
      rw [← AList.mem_keys, ← AList.mem_keys, h]
  have ht : t.walkFiles.Pairwise (· ≤ ·) := List.sortedLE_insertionSort.pairwise
  have hu : u.walkFiles.Pairwise (· ≤ ·) := List.sortedLE_insertionSort.pairwise
  apply List.Perm.eq_of_pairwise (fun a b _ _ h k => le_antisymm h k) ht hu
  exact ((List.perm_insertionSort _ _).trans hp).trans (List.perm_insertionSort _ _).symm

theorem Tree.prefix_free (t : Tree) {p q : RelPath} (hp : p ∈ t.files) (hq : q ∈ t.files)
    (h : p <+: q) : p = q := by
  obtain ⟨r, rfl⟩ := h
  induction r using List.reverseRecOn with
  | nil => simp
  | append_singleton r x ih =>
    exfalso
    have hpar := t.parents _ (Or.inr hq)
    rw [← List.append_assoc, List.dropLast_concat] at hpar
    have hdir : ∀ s : RelPath, p ++ s ∈ t.dirs → False := by
      intro s
      induction s using List.reverseRecOn with
      | nil => intro hd; exact t.disjoint p (by simpa using hd) hp
      | append_singleton s y ihs =>
        intro hd
        have hpar' := t.parents _ (Or.inl hd)
        rw [← List.append_assoc, List.dropLast_concat] at hpar'
        rcases hpar' with he | hd'
        · exact t.root_directory ((List.append_eq_nil_iff.mp he).1 ▸ hp)
        · exact ihs hd'
    rcases hpar with he | hd
    · exact t.root_directory ((List.append_eq_nil_iff.mp he).1 ▸ hp)
    · exact hdir r hd

theorem Tree.file_ne_nil {t : Tree} {p : RelPath} (hp : p ∈ t.files) : p ≠ [] :=
  fun he => t.root_directory (he ▸ hp)

theorem Tree.file_names {t : Tree} {p : RelPath} (hp : p ∈ t.files) : ∀ n ∈ p, FileName n :=
  t.names p (Or.inr hp)

theorem not_prefix_dropLast {p : RelPath} (hne : p ≠ []) : ¬ p <+: p.dropLast := by
  intro h
  have hle := h.length_le
  have hpos := List.length_pos_iff.mpr hne
  rw [List.length_dropLast] at hle
  omega

theorem Tree.Within.clear {u t : Tree} (hu : u.Within t) {p : RelPath} (hp : p ∈ t.files) :
    u.Clear p := by
  have hne := Tree.file_ne_nil hp
  constructor
  · intro q hq hf
    have hpre := (List.mem_inits _ _).mp hq
    have := t.prefix_free (hu.files_subset q hf) hp (hpre.trans (List.dropLast_prefix p))
    exact not_prefix_dropLast hne (this ▸ hpre)
  · intro hd
    obtain ⟨q, hq, hpre⟩ := hu.dirs_above p hd
    have := t.prefix_free hp hq (hpre.trans (List.dropLast_prefix q))
    exact not_prefix_dropLast hne (this ▸ hpre)

theorem Tree.Within.write {u t : Tree} (hu : u.Within t) {p : RelPath} (hp : p ∈ t.files)
    (b : Bytes) : ∃ u', writeUnder u (pathString p) b = (.ok (), u') ∧ u'.Within t := by
  obtain ⟨u', hw⟩ := writeUnder_clear b (Tree.file_ne_nil hp) (Tree.file_names hp) (hu.clear hp)
  obtain ⟨hf, hd⟩ := writeUnder_ok hw
  rw [destination_pathString (Tree.file_ne_nil hp) (Tree.file_names hp)] at hf hd
  refine ⟨u', hw, ?_, ?_⟩
  · intro q hq
    rw [hf, AList.mem_insert] at hq
    rcases hq with rfl | hq
    · exact hp
    · exact hu.files_subset q hq
  · intro d hdm
    rw [hd, List.mem_append, List.mem_inits] at hdm
    rcases hdm with hdm | hdm
    · exact ⟨p, hp, hdm⟩
    · exact hu.dirs_above d hdm

/-- Files of one tree can be written to an empty directory in any order. -/
theorem Tree.Within.wrote {t : Tree} (writes : List (RelPath × Bytes))
    (hw : ∀ w ∈ writes, w.1 ∈ t.files) {u : Tree} (hu : u.Within t) :
    ∃ u', Wrote (writes.map fun w => (pathString w.1, w.2)) u u' ∧ u'.Within t := by
  induction writes generalizing u with
  | nil => exact ⟨u, rfl, hu⟩
  | cons w rest ih =>
    obtain ⟨m, hm, hmw⟩ := hu.write (hw w (by simp)) w.2
    obtain ⟨u', hr, hru⟩ := ih (fun x hx => hw x (List.mem_cons_of_mem _ hx)) hmw
    exact ⟨u', ⟨m, hm, hr⟩, hru⟩

end QCap.PathTree

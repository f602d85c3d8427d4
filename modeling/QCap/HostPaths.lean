import QCap.PathTree

/-!
# Host paths

Path strings as the system call gets them, below a root that is itself named by a string, and
their lexical resolution. A path that `validate_relative_path` accepts resolves below the root.
-/
namespace QCap.HostPaths

open QCap.Text QCap.PathTree

def join (root rel : String) : String :=
  if isAbsolute rel then rel
  else if root = "" || endsWith root "/" then root ++ rel
  else root ++ "/" ++ rel

/-- Empty and `.` segments are dropped, and `..` pops. -/
def resolveSegment (dir : RelPath) (segment : String) : RelPath :=
  if segment = "" || segment = "." then dir
  else if segment = ".." then dir.dropLast
  else dir ++ [segment]

/-- Where a path leads from the working directory, as names from the root of the host. -/
def resolve (cwd : RelPath) (path : String) : RelPath :=
  (splitOn path '/').foldl resolveSegment (if isAbsolute path then [] else cwd)

def StrictlyBelow (root path : RelPath) : Prop := ∃ name rest, path = root ++ name :: rest

def resolveComponent (dir : RelPath) : Component → RelPath
  | .rootDir => []
  | .curDir => dir
  | .parentDir => dir.dropLast
  | .normal name => dir ++ [name]

def resolveComponents (cwd : RelPath) (cs : List Component) : RelPath :=
  cs.foldl resolveComponent cwd

def parent (cs : List Component) : Option (List Component) :=
  match cs.getLast? with
  | none | some .rootDir => none
  | some _ => some cs.dropLast

theorem resolveSegment_toComponent (leading : Bool) (dir : RelPath) (segment : String) :
    resolveComponents dir (toComponent leading segment).toList = resolveSegment dir segment := by
  unfold toComponent resolveSegment
  by_cases he : segment = ""
  · simp [he, resolveComponents]
  · by_cases hd : segment = "."
    · cases leading <;> simp [hd, resolveComponents, resolveComponent]
    · by_cases hp : segment = ".."
      · simp [hp, resolveComponents, resolveComponent]
      · simp [he, hd, hp, resolveComponents, resolveComponent]

theorem resolve_filterMap (segments : List String) (dir : RelPath) :
    resolveComponents dir (segments.filterMap (toComponent false)) =
      segments.foldl resolveSegment dir := by
  induction segments generalizing dir with
  | nil => rfl
  | cons segment segments ih =>
    rw [List.foldl_cons, ← resolveSegment_toComponent false, ← ih]
    cases h : toComponent false segment with
    | none =>
      rw [List.filterMap_cons_none h]
      rfl
    | some c =>
      rw [List.filterMap_cons_some h]
      rfl

theorem absolute_split {path : String} (h : isAbsolute path = true) :
    ∃ rest, splitOn path '/' = "" :: rest := by
  obtain ⟨t, ht⟩ := startsWith_iff.mp h
  refine ⟨splitOn t '/', ?_⟩
  have happ := splitOn_append "" t '/'
  rw [ht, show ("/" : String) = "" ++ String.singleton '/' by decide, happ,
    splitOn_of_free (by decide)]
  rfl

theorem components_absolute {path : String} {rest : List String} (ha : isAbsolute path = true)
    (hs : splitOn path '/' = "" :: rest) :
    components path = .rootDir :: rest.filterMap (toComponent false) := by
  have hstart : startsWith path "/" = true := ha
  simp [components, hs, hstart]

theorem components_relative {path first : String} {rest : List String}
    (ha : isAbsolute path = false) (hs : splitOn path '/' = first :: rest) :
    components path = (toComponent true first).toList ++ rest.filterMap (toComponent false) := by
  have hstart : startsWith path "/" = false := ha
  simp [components, hs, hstart]

theorem resolveComponents_components (cwd : RelPath) (path : String) :
    resolveComponents cwd (components path) = resolve cwd path := by
  cases ha : isAbsolute path with
  | true =>
    obtain ⟨rest, hs⟩ := absolute_split ha
    rw [components_absolute ha hs, resolve, hs, ha]
    exact resolve_filterMap _ _
  | false =>
    obtain ⟨first, rest, hs⟩ := List.exists_cons_of_ne_nil (splitOn_ne_nil path '/')
    rw [components_relative ha hs, resolve, hs, ha, resolveComponents, List.foldl_append,
      List.foldl_cons]
    exact (congrArg (fun dir => resolveComponents dir _)
      (resolveSegment_toComponent true cwd first)).trans (resolve_filterMap _ _)

theorem validate_ok {rel : String} : validateRelativePath rel = .ok () ↔
    isAbsolute rel = false ∧ rel ≠ "" ∧ ∀ c ∈ components rel, c.escapes = false := by
  unfold validateRelativePath
  by_cases h : (isAbsolute rel || decide (rel = "")) = true
  · rw [if_pos h]
    simp only [Bool.or_eq_true, decide_eq_true_eq] at h
    rcases h with h | h <;> simp [h]
  · rw [if_neg h]
    simp only [Bool.or_eq_true, decide_eq_true_eq, not_or, Bool.not_eq_true] at h
    by_cases he : (components rel).any Component.escapes = true
    · rw [if_pos he]
      obtain ⟨c, hc, hec⟩ := List.any_eq_true.mp he
      simp only [reduceCtorEq, false_iff, not_and, not_forall]
      exact fun _ _ => ⟨c, hc, by simp [hec]⟩
    · rw [if_neg he]
      simpa [h] using he

/-- The name that a segment is, unless it is `..`. -/
def segmentName (segment : String) : Option String :=
  if segment = "" || segment = "." then none else some segment

theorem toComponent_segmentName {segment : String} (h : segment ≠ "..") :
    toComponent false segment = (segmentName segment).map .normal := by
  unfold toComponent segmentName
  by_cases he : segment = ""
  · simp [he]
  · by_cases hd : segment = "." <;> simp [he, hd, h]

theorem name?_toComponent {segment : String} (h : segment ≠ "..") (leading : Bool) :
    (toComponent leading segment).bind Component.name? = segmentName segment := by
  unfold toComponent segmentName
  by_cases he : segment = ""
  · simp [he]
  · by_cases hd : segment = "."
    · cases leading <;> simp [hd, Component.name?]
    · simp [he, hd, h, Component.name?]

theorem toComponent_parent (leading : Bool) : toComponent leading ".." = some .parentDir := by
  simp [toComponent]

theorem segments_below {rel : String} (hv : validateRelativePath rel = .ok ()) :
    ∀ segment ∈ splitOn rel '/', segment ≠ ".." := by
  obtain ⟨ha, -, hc⟩ := validate_ok.mp hv
  obtain ⟨first, rest, hs⟩ := List.exists_cons_of_ne_nil (splitOn_ne_nil rel '/')
  rw [components_relative ha hs] at hc
  have hparent : .parentDir ∉ (toComponent true first).toList ++
      rest.filterMap (toComponent false) := fun hm => by
    have := hc _ hm
    cases this
  rw [hs]
  intro segment hm he
  subst he
  rcases List.mem_cons.mp hm with rfl | hm
  · exact hparent (List.mem_append_left _ (by rw [toComponent_parent]; simp))
  · exact hparent (List.mem_append_right _
      (List.mem_filterMap.mpr ⟨_, hm, toComponent_parent false⟩))

theorem destination_eq {rel : String} (hv : validateRelativePath rel = .ok ()) :
    destination rel = (splitOn rel '/').filterMap segmentName := by
  have hbelow := segments_below hv
  obtain ⟨ha, -, -⟩ := validate_ok.mp hv
  obtain ⟨first, rest, hs⟩ := List.exists_cons_of_ne_nil (splitOn_ne_nil rel '/')
  rw [hs, List.forall_mem_cons] at hbelow
  have hrest : (rest.filterMap (toComponent false)).filterMap Component.name? =
      rest.filterMap segmentName := by
    rw [List.filterMap_filterMap]
    exact List.filterMap_congr fun s hm => name?_toComponent (hbelow.2 s hm) false
  have hfirst := name?_toComponent hbelow.1 true
  rw [destination, components_relative ha hs, hs, List.filterMap_append, hrest,
    List.filterMap_cons, ← hfirst]
  cases toComponent true first with
  | none => rfl
  | some c => cases hn : c.name? <;> simp [hn]

/-- The segments of a path that is accepted are names, or nothing. -/
theorem components_below {rel : String} (hv : validateRelativePath rel = .ok ()) :
    (splitOn rel '/').filterMap (toComponent false) = (destination rel).map .normal := by
  rw [destination_eq hv, List.map_filterMap]
  exact List.filterMap_congr fun s hm => toComponent_segmentName (segments_below hv s hm)

theorem components_eq {path first : String} {rest : List String}
    (hs : splitOn path '/' = first :: rest) : components path =
      (if isAbsolute path then [.rootDir] else (toComponent true first).toList) ++
        rest.filterMap (toComponent false) := by
  rw [components, hs]
  rfl

theorem isAbsolute_append {root : String} (hne : root ≠ "") (rel : String) :
    isAbsolute (root ++ rel) = isAbsolute root := by
  obtain ⟨c, cs, hc⟩ := List.exists_cons_of_ne_nil (mt String.toList_eq_nil_iff.mp hne)
  simp [isAbsolute, startsWith, String.toList_append, hc, List.isPrefixOf]

theorem components_append {path root : String} {base blank segments : List String}
    (hne : base ≠ []) (hr : splitOn root '/' = base ++ blank)
    (hb : blank.filterMap (toComponent false) = []) (hs : splitOn path '/' = base ++ segments)
    (ha : isAbsolute path = isAbsolute root) :
    components path = components root ++ segments.filterMap (toComponent false) := by
  obtain ⟨first, rest, rfl⟩ := List.exists_cons_of_ne_nil hne
  rw [List.cons_append] at hr hs
  rw [components_eq hs, components_eq hr, ha, List.filterMap_append, List.filterMap_append, hb,
    List.append_nil, List.append_assoc]

theorem join_split (root : String) {rel : String} (ha : isAbsolute rel = false)
    (hroot : root ≠ "") : ∃ base blank, base ≠ [] ∧ splitOn root '/' = base ++ blank ∧
      blank.filterMap (toComponent false) = [] ∧
      splitOn (join root rel) '/' = base ++ splitOn rel '/' ∧
      isAbsolute (join root rel) = isAbsolute root := by
  by_cases hend : endsWith root "/" = true
  · obtain ⟨dir, hdir⟩ := List.isSuffixOf_iff_suffix.mp hend
    have hsep : root = String.ofList dir ++ String.singleton '/' := by
      rw [← String.toList_inj, String.toList_append, String.toList_ofList]
      exact hdir.symm
    have hjoin : join root rel = root ++ rel := by simp [join, ha, hend]
    have hsplit := splitOn_append (String.ofList dir) "" '/'
    rw [String.append_empty, ← hsep] at hsplit
    refine ⟨_, _, splitOn_ne_nil _ _, hsplit, by decide, ?_,
      by rw [hjoin, isAbsolute_append hroot]⟩
    rw [hjoin, hsep, splitOn_append]
  · have hjoin : join root rel = root ++ String.singleton '/' ++ rel := by
      simp [join, hroot, ha, hend]
    refine ⟨_, [], splitOn_ne_nil root '/', (List.append_nil _).symm, rfl,
      by rw [hjoin, splitOn_append], ?_⟩
    rw [hjoin, String.append_assoc, isAbsolute_append hroot]

theorem join_empty {rel : String} (ha : isAbsolute rel = false) : join "" rel = rel := by
  simp [join, ha]

theorem components_join (cwd : RelPath) (root : String) {rel : String}
    (hv : validateRelativePath rel = .ok ()) :
    ∃ pre, components (join root rel) = pre ++ (destination rel).map .normal ∧
      resolveComponents cwd pre = resolve cwd root := by
  obtain ⟨ha, -, -⟩ := validate_ok.mp hv
  by_cases hroot : root = ""
  · obtain ⟨first, rest, hs⟩ := List.exists_cons_of_ne_nil (splitOn_ne_nil rel '/')
    have hbelow := components_below hv
    have hempty : resolve cwd "" = cwd := rfl
    rw [hroot, join_empty ha, components_relative ha hs, hempty]
    rw [hs] at hbelow
    by_cases hdot : first = "."
    · subst hdot
      exact ⟨[.curDir], congrArg (Component.curDir :: ·) hbelow, rfl⟩
    · have hsame : toComponent true first = toComponent false first := by
        simp [toComponent, hdot]
      refine ⟨[], ?_, rfl⟩
      rw [List.nil_append, ← hbelow, hsame, List.filterMap_cons]
      cases toComponent false first <;> rfl
  · obtain ⟨base, blank, hne, hr, hb, hs, habs⟩ := join_split root ha hroot
    refine ⟨components root, ?_, resolveComponents_components cwd root⟩
    rw [← components_below hv]
    exact components_append hne hr hb hs habs

theorem endsInName_join (root : String) {rel : String} (ha : isAbsolute rel = false) :
    endsInName (join root rel) = endsInName rel := by
  by_cases hroot : root = ""
  · rw [hroot, join_empty ha]
  · obtain ⟨base, blank, -, -, -, hs, -⟩ := join_split root ha hroot
    have hne := splitOn_ne_nil rel '/'
    rw [endsInName, endsInName, hs, List.getLast?_append_of_ne_nil _ hne]

theorem resolveComponents_names (dir p : RelPath) :
    resolveComponents dir (p.map .normal) = dir ++ p := by
  induction p generalizing dir with
  | nil => simp [resolveComponents]
  | cons n p ih =>
    have h := ih (dir ++ [n])
    rw [List.append_assoc] at h
    exact h

/-- The string that is opened leads where the check expects it. -/
theorem resolve_join (cwd : RelPath) (root : String) {rel : String}
    (hv : validateRelativePath rel = .ok ()) :
    resolve cwd (join root rel) = resolve cwd root ++ destination rel := by
  obtain ⟨pre, hc, hp⟩ := components_join cwd root hv
  rw [← resolveComponents_components, hc, ← hp, ← resolveComponents_names]
  exact List.foldl_append

/-- The files and directories of the host, from `/`, and the paths written to so far. -/
structure Host where
  tree : Tree
  written : List String

def createParent (cwd : RelPath) (tree : Tree) (dest : String) : Result Tree :=
  match parent (components dest) with
  | none => .ok tree
  | some cs => tree.createDirAll (resolveComponents cwd cs)

/-- `create_dir_all(dest.parent())` and `fs::write(dest)` for `dest = root.join(rel)`. -/
def hostWrite (cwd : RelPath) (root : String) (host : Host) (rel : String) (bytes : Bytes) :
    Result Unit × Host :=
  match createParent cwd host.tree (join root rel) with
  | .error e => (.error e, host)
  | .ok tree =>
    if endsInName (join root rel) then
      match tree.write (resolve cwd (join root rel)) bytes with
      | .error e => (.error e, ⟨tree, host.written⟩)
      | .ok tree' => (.ok (), ⟨tree', join root rel :: host.written⟩)
    else (.error .fileSystem, ⟨tree, host.written⟩)

/-- `write_safe`. -/
def hostWriteSafe (cwd : RelPath) (root : String) (host : Host) (rel : String) (bytes : Bytes) :
    Result Unit × Host :=
  match validateRelativePath rel with
  | .error e => (.error e, host)
  | .ok () => hostWrite cwd root host rel bytes

/-- Between two states of the host, no file but those below the root changed, and every path
that was written to leads below the root. -/
structure Confined (cwd : RelPath) (root : String) (before after : Host) : Prop where
  elsewhere : ∀ p, after.tree.read p ≠ before.tree.read p → StrictlyBelow (resolve cwd root) p
  written : ∀ dest ∈ after.written,
    dest ∈ before.written ∨ StrictlyBelow (resolve cwd root) (resolve cwd dest)

theorem Confined.refl (cwd : RelPath) (root : String) (host : Host) :
    Confined cwd root host host :=
  ⟨fun _ h => absurd rfl h, fun _ h => Or.inl h⟩

theorem Confined.trans {cwd : RelPath} {root : String} {a b c : Host}
    (hab : Confined cwd root a b) (hbc : Confined cwd root b c) : Confined cwd root a c where
  elsewhere p h := by
    by_cases hb : b.tree.read p = a.tree.read p
    · exact hbc.elsewhere p (hb ▸ h)
    · exact hab.elsewhere p hb
  written dest h := by
    rcases hbc.written dest h with h | h
    · exact hab.written dest h
    · exact Or.inr h

theorem strictlyBelow_append {root p : RelPath} (hne : p ≠ []) :
    StrictlyBelow root (root ++ p) := by
  obtain ⟨name, rest, rfl⟩ := List.exists_cons_of_ne_nil hne
  exact ⟨name, rest, rfl⟩

theorem destination_ne_nil {rel : String} (hv : validateRelativePath rel = .ok ())
    (h : endsInName rel = true) : destination rel ≠ [] := by
  rw [destination_eq hv]
  unfold endsInName at h
  split at h
  · rename_i last hl
    have hname : segmentName last = some last := by simpa [segmentName] using h
    exact List.ne_nil_of_mem (List.mem_filterMap.mpr ⟨last, List.mem_of_getLast? hl, hname⟩)
  · cases h

section

variable {cwd : RelPath} {root rel : String} {host host' : Host} {bytes : Bytes}

theorem createParent_cases (cwd : RelPath) (tree : Tree) (dest : String) :
    (∃ tree', createParent cwd tree dest = .ok tree' ∧ tree'.files = tree.files) ∨
      createParent cwd tree dest = .error .fileSystem := by
  rw [createParent]
  cases parent (components dest) with
  | none => exact Or.inl ⟨tree, rfl, rfl⟩
  | some cs =>
    rcases createDirAll_cases tree (resolveComponents cwd cs) with ⟨-, t', h, hf, -⟩ | ⟨-, h⟩
    · exact Or.inl ⟨t', h, hf⟩
    · exact Or.inr h

theorem hostWrite_cases (cwd : RelPath) (root : String) (host : Host) (rel : String)
    (bytes : Bytes) :
    (∃ tree, hostWrite cwd root host rel bytes = (.ok (), ⟨tree, join root rel :: host.written⟩) ∧
      endsInName (join root rel) = true ∧
      tree.files = host.tree.files.insert (resolve cwd (join root rel)) bytes) ∨
    ∃ tree, hostWrite cwd root host rel bytes = (.error .fileSystem, ⟨tree, host.written⟩) ∧
      tree.files = host.tree.files := by
  rw [hostWrite]
  rcases createParent_cases cwd host.tree (join root rel) with ⟨tree, hp, hfiles⟩ | hp
  · rw [hp]
    cases hend : endsInName (join root rel) with
    | false => exact Or.inr ⟨tree, rfl, hfiles⟩
    | true =>
      rcases write_cases tree (resolve cwd (join root rel)) bytes with
        ⟨-, tree', hw, hfiles', -⟩ | ⟨-, hw⟩
      · simp only [hw, if_true]
        exact Or.inl ⟨tree', rfl, trivial, by rw [hfiles', hfiles]⟩
      · simp only [hw, if_true]
        exact Or.inr ⟨tree, rfl, hfiles⟩
  · rw [hp]
    exact Or.inr ⟨host.tree, rfl, rfl⟩

theorem hostWrite_error {e : Error} (h : hostWrite cwd root host rel bytes = (.error e, host')) :
    host'.tree.files = host.tree.files ∧ host'.written = host.written := by
  rcases hostWrite_cases cwd root host rel bytes with ⟨tree, h', -⟩ | ⟨tree, h', hfiles⟩
  · cases h'.symm.trans h
  · cases h'.symm.trans h
    exact ⟨hfiles, rfl⟩

theorem hostWrite_ok (h : hostWrite cwd root host rel bytes = (.ok (), host')) :
    endsInName (join root rel) = true ∧
      host'.tree.files = host.tree.files.insert (resolve cwd (join root rel)) bytes ∧
      host'.written = join root rel :: host.written := by
  rcases hostWrite_cases cwd root host rel bytes with ⟨tree, h', hend, hfiles⟩ | ⟨tree, h', -⟩
  · cases h'.symm.trans h
    exact ⟨hend, hfiles, rfl⟩
  · cases h'.symm.trans h

/-- A write after the check goes to its destination below the root, and nowhere else. -/
theorem hostWrite_below (hv : validateRelativePath rel = .ok ())
    (h : hostWrite cwd root host rel bytes = (.ok (), host')) : destination rel ≠ [] ∧
      host'.tree.files = host.tree.files.insert (resolve cwd root ++ destination rel) bytes ∧
      host'.written = join root rel :: host.written := by
  obtain ⟨ha, -, -⟩ := validate_ok.mp hv
  obtain ⟨hend, hfiles, hwritten⟩ := hostWrite_ok h
  rw [endsInName_join root ha] at hend
  rw [resolve_join cwd root hv] at hfiles
  exact ⟨destination_ne_nil hv hend, hfiles, hwritten⟩

theorem hostWrite_confined (hv : validateRelativePath rel = .ok ()) :
    Confined cwd root host (hostWrite cwd root host rel bytes).2 := by
  cases h : hostWrite cwd root host rel bytes with
  | mk result after =>
    cases result with
    | error e =>
      obtain ⟨hfiles, hwritten⟩ := hostWrite_error h
      refine ⟨fun p hp => absurd ?_ hp, fun dest hd => Or.inl (hwritten ▸ hd)⟩
      simp only [Tree.read, hfiles]
    | ok u =>
      obtain ⟨hne, hfiles, hwritten⟩ := hostWrite_below hv h
      constructor
      · intro p hp
        by_cases hdest : resolve cwd root ++ destination rel = p
        · exact hdest ▸ strictlyBelow_append hne
        · refine absurd ?_ hp
          simp only [Tree.read, hfiles]
          exact AList.lookup_insert_ne (Ne.symm hdest)
      · intro dest hd
        simp only [hwritten, List.mem_cons] at hd
        rcases hd with rfl | hd
        · rw [resolve_join cwd root hv]
          exact Or.inr (strictlyBelow_append hne)
        · exact Or.inl hd

theorem hostWriteSafe_confined :
    Confined cwd root host (hostWriteSafe cwd root host rel bytes).2 := by
  rw [hostWriteSafe]
  split
  · exact Confined.refl cwd root host
  · rename_i hv
    exact hostWrite_confined hv

/-- A name that leads anywhere else is refused, and nothing is written for it. -/
theorem hostWrite_refused (host : Host) (bytes : Bytes) (hv : validateRelativePath rel = .ok ())
    (h : ¬ StrictlyBelow (resolve cwd root) (resolve cwd (join root rel))) :
    ∃ e after, hostWrite cwd root host rel bytes = (.error e, after) ∧
      after.tree.files = host.tree.files ∧ after.written = host.written := by
  cases hw : hostWrite cwd root host rel bytes with
  | mk result after =>
    cases result with
    | error e => exact ⟨e, after, rfl, hostWrite_error hw⟩
    | ok u =>
      refine absurd ?_ h
      rw [resolve_join cwd root hv]
      exact strictlyBelow_append (hostWrite_below hv hw).1

theorem hostWriteSafe_refused
    (h : ¬ StrictlyBelow (resolve cwd root) (resolve cwd (join root rel))) :
    ∃ e after, hostWriteSafe cwd root host rel bytes = (.error e, after) ∧
      after.tree.files = host.tree.files ∧ after.written = host.written := by
  rw [hostWriteSafe]
  split
  · exact ⟨_, host, rfl, rfl, rfl⟩
  · rename_i hv
    exact hostWrite_refused host bytes hv h

end

end QCap.HostPaths

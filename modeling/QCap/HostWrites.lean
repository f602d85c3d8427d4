import QCap.HostPaths
import QCap.IssuerCommands
import QCap.Json

/-!
# Writes on the host

The loops that extract, open and seal, on the whole file system instead of the tree below their
root. They are the loops of the tree where it is mounted, and leave everything else alone.
-/
namespace QCap.HostWrites

open QCap.Text QCap.PathTree QCap.Crypto QCap.Formats QCap.Capability QCap.Archive
open QCap.Identity QCap.KeyWrap QCap.OpenArchive QCap.IssuerCommands QCap.HostPaths

structure Mounted (root : RelPath) (host t : Tree) : Prop where
  directory : root = [] ∨ root ∈ host.dirs
  files : ∀ p, host.read (root ++ p) = t.read p
  dirs : ∀ p, p ≠ [] → (root ++ p ∈ host.dirs ↔ p ∈ t.dirs)

theorem dirs_prefix {t : Tree} {p q : RelPath} (hp : p ∈ t.dirs) (h : q <+: p) :
    q = [] ∨ q ∈ t.dirs := by
  obtain ⟨r, rfl⟩ := h
  induction r using List.reverseRecOn with
  | nil => exact Or.inr (by simpa using hp)
  | append_singleton r x ih =>
    have hpar := t.parents _ (Or.inl hp)
    rw [← List.append_assoc, List.dropLast_concat] at hpar
    rcases hpar with he | hd
    · exact Or.inl (List.append_eq_nil_iff.mp he).1
    · exact ih hd

theorem prefix_append {q r p : RelPath} (h : q <+: r ++ p) :
    q <+: r ∨ ∃ s, s <+: p ∧ q = r ++ s := by
  rcases Nat.le_total q.length r.length with hl | hl
  · exact Or.inl (List.prefix_of_prefix_length_le h (List.prefix_append r p) hl)
  · obtain ⟨s, rfl⟩ := List.prefix_of_prefix_length_le (List.prefix_append r p) h hl
    exact Or.inr ⟨s, (List.prefix_append_right_inj r).mp h, rfl⟩

variable {root : RelPath} {host t : Tree}

theorem Mounted.mem_files (hm : Mounted root host t) {p : RelPath} :
    root ++ p ∈ host.files ↔ p ∈ t.files := by
  rw [Tree.mem_files, Tree.mem_files, hm.files]

theorem Mounted.names (hm : Mounted root host t) {p : RelPath} :
    (∀ n ∈ root ++ p, FileName n) ↔ ∀ n ∈ p, FileName n := by
  rw [List.forall_mem_append]
  refine ⟨And.right, fun hp => ⟨?_, hp⟩⟩
  rcases hm.directory with rfl | hd
  · simp
  · exact host.names root (Or.inl hd)

theorem Mounted.creatable (hm : Mounted root host t) {p : RelPath} :
    host.Creatable (root ++ p) ↔ t.Creatable p := by
  rw [Tree.Creatable, Tree.Creatable, hm.names]
  refine and_congr_right fun _ => ⟨?_, ?_⟩
  · intro h q hq hf
    refine h (root ++ q) ?_ (hm.mem_files.mpr hf)
    rw [List.mem_inits] at hq ⊢
    exact (List.prefix_append_right_inj root).mpr hq
  · intro h q hq hf
    rcases prefix_append ((List.mem_inits _ _).mp hq) with hq | ⟨s, hs, rfl⟩
    · have habove : q = [] ∨ q ∈ host.dirs := by
        rcases hm.directory with rfl | hd
        · exact Or.inl (List.prefix_nil.mp hq)
        · exact dirs_prefix hd hq
      rcases habove with rfl | hd
      · exact host.root_directory hf
      · exact host.disjoint q hd hf
    · exact h s ((List.mem_inits _ _).mpr hs) (hm.mem_files.mp hf)

theorem Mounted.createDirAll (hm : Mounted root host t) (p : RelPath) :
    (∃ t' host', t.createDirAll p = .ok t' ∧ host.createDirAll (root ++ p) = .ok host' ∧
      Mounted root host' t') ∨
    (t.createDirAll p = .error .fileSystem ∧
      host.createDirAll (root ++ p) = .error .fileSystem) := by
  rcases createDirAll_cases t p with ⟨hc, t', ht, hf, hd⟩ | ⟨hc, ht⟩
  · rcases createDirAll_cases host (root ++ p) with ⟨-, host', hh, hf', hd'⟩ | ⟨hc', -⟩
    · refine Or.inl ⟨t', host', ht, hh, ⟨?_, ?_, ?_⟩⟩
      · rw [hd']
        exact hm.directory.imp_right (List.mem_append_right _)
      · intro q
        simp only [Tree.read, hf, hf']
        exact hm.files q
      · intro q hq
        rw [hd, hd', List.mem_append, List.mem_append, List.mem_inits, List.mem_inits,
          List.prefix_append_right_inj, hm.dirs q hq]
    · exact absurd (hm.creatable.mpr hc) hc'
  · rcases createDirAll_cases host (root ++ p) with ⟨hc', -⟩ | ⟨-, hh⟩
    · exact absurd (hm.creatable.mp hc') hc
    · exact Or.inr ⟨ht, hh⟩

theorem Mounted.writable (hm : Mounted root host t) {p : RelPath} (hne : p ≠ []) :
    Writable host (root ++ p) ↔ Writable t p := by
  have hparent : (root ++ p.dropLast = [] ∨ root ++ p.dropLast ∈ host.dirs) ↔
      (p.dropLast = [] ∨ p.dropLast ∈ t.dirs) := by
    by_cases hp : p.dropLast = []
    · simp only [hp, List.append_nil, true_or, iff_true]
      exact hm.directory
    · simp only [hp, List.append_eq_nil_iff, and_false, false_or, hm.dirs _ hp]
  rw [Writable, Writable, hm.names, List.dropLast_append_of_ne_nil hne, hparent, hm.dirs p hne]
  simp [hne]

theorem Mounted.write (hm : Mounted root host t) {p : RelPath} (hne : p ≠ []) (bytes : Bytes) :
    (∃ t' host', t.write p bytes = .ok t' ∧ host.write (root ++ p) bytes = .ok host' ∧
      Mounted root host' t') ∨
    (t.write p bytes = .error .fileSystem ∧
      host.write (root ++ p) bytes = .error .fileSystem) := by
  rcases write_cases t p bytes with ⟨hw, t', ht, hf, hd⟩ | ⟨hw, ht⟩
  · rcases write_cases host (root ++ p) bytes with ⟨-, host', hh, hf', hd'⟩ | ⟨hw', -⟩
    · refine Or.inl ⟨t', host', ht, hh, ⟨?_, ?_, ?_⟩⟩
      · rw [hd']
        exact hm.directory
      · intro q
        simp only [Tree.read, hf, hf']
        by_cases hq : q = p
        · rw [hq, AList.lookup_insert, AList.lookup_insert]
        · rw [AList.lookup_insert_ne hq,
            AList.lookup_insert_ne fun h => hq (List.append_cancel_left h)]
          exact hm.files q
      · intro q hq
        rw [hd, hd']
        exact hm.dirs q hq
    · exact absurd ((hm.writable hne).mpr hw) hw'
  · rcases write_cases host (root ++ p) bytes with ⟨hw', -⟩ | ⟨-, hh⟩
    · exact absurd ((hm.writable hne).mp hw') hw
    · exact Or.inr ⟨ht, hh⟩

/-- The same result on the host as in the tree, and the same tree while nothing fails. -/
def Mirrors {α : Type} (root : RelPath) (onHost : Result α × Host) (onTree : Result α × Tree) :
    Prop :=
  onHost.1 = onTree.1 ∧ (∀ p, onHost.2.tree.read (root ++ p) = onTree.2.read p) ∧
    ∀ a, onTree.1 = .ok a → Mounted root onHost.2.tree onTree.2

theorem parent_names (pre : List Component) {p : RelPath} (hne : p ≠ []) :
    parent (pre ++ p.map .normal) = some (pre ++ p.dropLast.map .normal) := by
  have hmap : p.map Component.normal ≠ [] := by simpa using hne
  have hlast := List.getLast?_eq_some_getLast hne
  have hl : (pre ++ p.map Component.normal).getLast? = some (.normal (p.getLast hne)) := by
    rw [List.getLast?_append_of_ne_nil _ hmap, List.getLast?_map, hlast]
    rfl
  rw [parent, hl]
  simp only [List.dropLast_append_of_ne_nil hmap, List.map_dropLast]

theorem createParent_join (cwd : RelPath) (rootPath : String) {rel : String} (tree : Tree)
    (hv : validateRelativePath rel = .ok ()) (hne : destination rel ≠ []) :
    createParent cwd tree (join rootPath rel) =
      tree.createDirAll (resolve cwd rootPath ++ (destination rel).dropLast) := by
  obtain ⟨pre, hc, hp⟩ := components_join cwd rootPath hv
  have hresolve : resolveComponents cwd (pre ++ (destination rel).dropLast.map .normal) =
      resolve cwd rootPath ++ (destination rel).dropLast := by
    rw [← hp, ← resolveComponents_names]
    exact List.foldl_append
  rw [createParent, hc, parent_names pre hne]
  simp only [hresolve]

theorem Mirrors.error {α : Type} {root : RelPath} {host : Host} {t : Tree} {e : Error}
    (h : ∀ p, host.tree.read (root ++ p) = t.read p) :
    Mirrors (α := α) root (.error e, host) (.error e, t) :=
  ⟨rfl, h, fun _ he => nomatch he⟩

theorem Mirrors.ok {α : Type} {root : RelPath} {host : Host} {t : Tree} {a : α}
    (h : Mounted root host.tree t) : Mirrors root (.ok a, host) (.ok a, t) :=
  ⟨rfl, h.files, fun _ _ => h⟩

section

variable {cwd : RelPath} {rootPath rel : String} {host : Host} {t : Tree}

theorem hostWrite_nameless (hm : Mounted (resolve cwd rootPath) host.tree t)
    (hv : validateRelativePath rel = .ok ()) (hne : destination rel = [])
    (bytes : Bytes) : Mirrors (resolve cwd rootPath) (hostWrite cwd rootPath host rel bytes)
      (writeUnder t rel bytes) := by
  obtain ⟨ha, -, -⟩ := validate_ok.mp hv
  obtain ⟨hr, -⟩ | ⟨-, t', ht, hf⟩ := writeUnder_cases t rel bytes
  · exact absurd hne hr.nonempty
  obtain ⟨-, -, hend, -⟩ | ⟨tree, hh, hf'⟩ := hostWrite_cases cwd rootPath host rel bytes
  · rw [endsInName_join rootPath ha] at hend
    exact absurd hne (destination_ne_nil hv hend)
  · rw [ht, hh]
    refine Mirrors.error fun p => ?_
    simp only [Tree.read, hf, hf']
    exact hm.files p

theorem hostWrite_mirrors (hm : Mounted (resolve cwd rootPath) host.tree t)
    (hv : validateRelativePath rel = .ok ()) (bytes : Bytes) :
    Mirrors (resolve cwd rootPath) (hostWrite cwd rootPath host rel bytes)
      (writeUnder t rel bytes) := by
  by_cases hne : destination rel = []
  · exact hostWrite_nameless hm hv hne bytes
  obtain ⟨ha, -, -⟩ := validate_ok.mp hv
  rw [hostWrite, writeUnder, createParent_join cwd rootPath host.tree hv hne,
    endsInName_join rootPath ha, resolve_join cwd rootPath hv]
  rcases hm.createDirAll (destination rel).dropLast with ⟨t₁, host₁, hd, hh, hm₁⟩ | ⟨hd, hh⟩
  · rw [hd, hh]
    cases hend : endsInName rel with
    | false => exact Mirrors.error hm₁.files
    | true =>
      rcases hm₁.write hne bytes with ⟨t₂, host₂, ht, hw, hm₂⟩ | ⟨ht, hw⟩
      · simp only [ht, hw, if_true]
        exact Mirrors.ok hm₂
      · simp only [ht, hw, if_true]
        exact Mirrors.error hm₁.files
  · rw [hd, hh]
    exact Mirrors.error hm.files

/-- `write_safe` does on the host what it does in the tree below its root. -/
theorem hostWriteSafe_mirrors (hm : Mounted (resolve cwd rootPath) host.tree t) (bytes : Bytes) :
    Mirrors (resolve cwd rootPath) (hostWriteSafe cwd rootPath host rel bytes)
      (writeSafe t rel bytes) := by
  rw [hostWriteSafe, writeSafe]
  cases hv : validateRelativePath rel with
  | error e => exact Mirrors.error hm.files
  | ok u => exact hostWrite_mirrors hm hv bytes

end

section

variable (C : Primitives) (cwd : RelPath) (root : String)

/-- The loop of `verify_archive` and of `open_plain`. -/
def hostWriteEntries (allowed : String → Bool) (host : Host) (count : ℕ) :
    Zip → Result ℕ × Host
  | [] => (.ok count, host)
  | entry :: rest =>
    match payloadRel entry with
    | none => hostWriteEntries allowed host count rest
    | some rel =>
      if allowed rel then
        match hostWriteSafe cwd root host rel entry.bytes with
        | (.error e, host') => (.error e, host')
        | (.ok (), host') => hostWriteEntries allowed host' (count + 1) rest
      else hostWriteEntries allowed host count rest

/-- The loop of `open_encrypted`. -/
def hostDecryptFiles (zip : Zip) (contentKey : Key) (access : Access) (host : Host)
    (exported : ℕ) : List PayloadFile → Result ℕ × Host
  | [] => (.ok exported, host)
  | spec :: rest =>
    if access.allowsPath spec.path then
      match decryptFile C zip contentKey spec with
      | .error e => (.error e, host)
      | .ok plaintext =>
        match hostWriteSafe cwd root host spec.path plaintext with
        | (.error e, host') => (.error e, host')
        | (.ok (), host') =>
          hostDecryptFiles zip contentKey access host' (exported + 1) rest
    else hostDecryptFiles zip contentKey access host exported rest

/-- One turn of the loop of `seal`. -/
def hostSealFile (r : SealRequest) (i : ℕ) (p : RelPath) (plaintext : Bytes) (host : Host) :
    Result PayloadFile × Host :=
  match relPath p with
  | .error e => (.error e, host)
  | .ok rel =>
    match encrypt C r.contentKey (r.fileNonce i) (asBytes rel) plaintext with
    | .error e => (.error e, host)
    | .ok ciphertext =>
      match hostWrite cwd root host rel ciphertext with
      | (.error e, host') => (.error e, host')
      | (.ok (), host') =>
        (.ok
          { path := rel
            size := ciphertext.length
            nonce := hexEncode (r.fileNonce i).val
            ciphertextHash := blake3Prefixed C ciphertext }, host')

def hostSealFiles (r : SealRequest) : ℕ → List (RelPath × Bytes) → Host →
    Result (List PayloadFile) × Host
  | _, [], host => (.ok [], host)
  | i, (p, plaintext) :: rest, host =>
    match hostSealFile C cwd root r i p plaintext host with
    | (.error e, host') => (.error e, host')
    | (.ok spec, host') =>
      match hostSealFiles r (i + 1) rest host' with
      | (.error e, final) => (.error e, final)
      | (.ok specs, final) => (.ok (spec :: specs), final)

variable (J : JsonCodec)

def hostRequireExport : Result ℕ × Host → Result Unit × Host
  | (.error e, host) => (.error e, host)
  | (.ok exported, host) =>
    (ensure (exported ≠ 0) "capability did not allow any files", host)

def hostOpenEncrypted (zip : Zip) (manifest : QcapManifest) (identity : Identity)
    (passphrase : Option String) (access : Access) (host : Host) : Result Unit × Host :=
  match contentKeyFor C J manifest identity passphrase with
  | .error e => (.error e, host)
  | .ok key => hostRequireExport (hostDecryptFiles C cwd root zip key access host 0 manifest.files)

def hostOpenPlain (zip : Zip) (access : Access) (host : Host) : Result Unit × Host :=
  hostRequireExport (hostWriteEntries cwd root access.allowsPath host 0 zip)

variable {C cwd root J}

theorem hostWriteEntries_mirrors {allowed : String → Bool} {zip : Zip} {host : Host} {t : Tree}
    (hm : Mounted (resolve cwd root) host.tree t) (count : ℕ) :
    Mirrors (resolve cwd root) (hostWriteEntries cwd root allowed host count zip)
      (writeEntries allowed t count zip) := by
  induction zip generalizing host t count with
  | nil => exact Mirrors.ok hm
  | cons entry rest ih =>
    unfold hostWriteEntries writeEntries
    cases payloadRel entry with
    | none => exact ih hm count
    | some rel =>
      simp only
      by_cases ha : allowed rel = true
      · have hstep : Mirrors (resolve cwd root) (hostWriteSafe cwd root host rel entry.bytes)
            (writeSafe t rel entry.bytes) := hostWriteSafe_mirrors hm entry.bytes
        rw [if_pos ha, if_pos ha]
        revert hstep
        rcases hostWriteSafe cwd root host rel entry.bytes with ⟨result, host'⟩
        rcases writeSafe t rel entry.bytes with ⟨result', t'⟩
        rintro ⟨rfl, hfiles, hmounted⟩
        cases result with
        | error e => exact Mirrors.error hfiles
        | ok u => exact ih (hmounted u rfl) (count + 1)
      · rw [if_neg ha, if_neg ha]
        exact ih hm count

theorem hostDecryptFiles_mirrors {zip : Zip} {key : Key} {access : Access}
    {specs : List PayloadFile} {host : Host} {t : Tree}
    (hm : Mounted (resolve cwd root) host.tree t) (exported : ℕ) :
    Mirrors (resolve cwd root) (hostDecryptFiles C cwd root zip key access host exported specs)
      (decryptFiles C zip key access t exported specs) := by
  induction specs generalizing host t exported with
  | nil => exact Mirrors.ok hm
  | cons spec rest ih =>
    unfold hostDecryptFiles decryptFiles
    by_cases ha : access.allowsPath spec.path = true
    · rw [if_pos ha, if_pos ha]
      cases decryptFile C zip key spec with
      | error e => exact Mirrors.error hm.files
      | ok plaintext =>
        have hstep : Mirrors (resolve cwd root) (hostWriteSafe cwd root host spec.path plaintext)
            (writeSafe t spec.path plaintext) := hostWriteSafe_mirrors hm plaintext
        revert hstep
        simp only
        rcases hostWriteSafe cwd root host spec.path plaintext with ⟨result, host'⟩
        rcases writeSafe t spec.path plaintext with ⟨result', t'⟩
        rintro ⟨rfl, hfiles, hmounted⟩
        cases result with
        | error e => exact Mirrors.error hfiles
        | ok u => exact ih (hmounted u rfl) (exported + 1)
    · rw [if_neg ha, if_neg ha]
      exact ih hm exported

theorem hostRequireExport_mirrors {r : RelPath} {onHost : Result ℕ × Host}
    {onTree : Result ℕ × Tree} (h : Mirrors r onHost onTree) :
    Mirrors r (hostRequireExport onHost) (requireExport onTree) := by
  rcases onHost with ⟨result, host⟩
  rcases onTree with ⟨result', t⟩
  obtain ⟨rfl, hfiles, hmounted⟩ := h
  cases result with
  | error e => exact Mirrors.error hfiles
  | ok n => exact ⟨rfl, hfiles, fun _ _ => hmounted n rfl⟩

theorem hostOpenPlain_mirrors {zip : Zip} {access : Access} {host : Host} {t : Tree}
    (hm : Mounted (resolve cwd root) host.tree t) :
    Mirrors (resolve cwd root) (hostOpenPlain cwd root zip access host)
      (openPlain zip access t) :=
  hostRequireExport_mirrors (hostWriteEntries_mirrors hm 0)

theorem hostOpenEncrypted_mirrors {zip : Zip} {manifest : QcapManifest} {identity : Identity}
    {passphrase : Option String} {access : Access} {host : Host} {t : Tree}
    (hm : Mounted (resolve cwd root) host.tree t) :
    Mirrors (resolve cwd root)
      (hostOpenEncrypted C cwd root J zip manifest identity passphrase access host)
      (openEncrypted C J zip manifest identity passphrase access t) := by
  unfold hostOpenEncrypted openEncrypted
  cases contentKeyFor C J manifest identity passphrase with
  | error e => exact Mirrors.error hm.files
  | ok key => exact hostRequireExport_mirrors (hostDecryptFiles_mirrors hm 0)

theorem relPath_ok {p : RelPath} {rel : String} (h : relPath p = .ok rel) :
    rel = replaceChar (pathString p) '\\' '/' ∧ validateRelativePath rel = .ok () := by
  simp only [relPath, bind_ok] at h
  obtain ⟨u, hv, he⟩ := h
  cases he
  exact ⟨rfl, hv⟩

theorem hostSealFiles_mirrors {r : SealRequest} {files : List (RelPath × Bytes)} {i : ℕ}
    {host : Host} {t final : Tree} {specs : List PayloadFile}
    (hm : Mounted (resolve cwd root) host.tree t)
    (h : sealFiles C r i files t = .ok (final, specs)) :
    ∃ host', hostSealFiles C cwd root r i files host = (.ok specs, host') ∧
      Mounted (resolve cwd root) host'.tree final := by
  induction files generalizing i host t specs with
  | nil =>
    cases h
    exact ⟨host, rfl, hm⟩
  | cons file rest ih =>
    obtain ⟨p, plaintext⟩ := file
    simp only [sealFiles, bind_ok] at h
    obtain ⟨rel, hrel, ciphertext, hc, h⟩ := h
    have hstep := hostWrite_mirrors hm (relPath_ok hrel).2 ciphertext
    split at h
    · cases h
    · rename_i t' hw
      rw [hw] at hstep
      simp only [bind_ok] at h
      obtain ⟨⟨_, more⟩, hrest, he⟩ := h
      cases he
      unfold hostSealFiles hostSealFile
      rw [hrel]
      simp only [hc]
      revert hstep
      rcases hostWrite cwd root host rel ciphertext with ⟨result, host₁⟩
      rintro ⟨rfl, -, hmounted⟩
      obtain ⟨host', hseal, hfinal⟩ := ih (hmounted () rfl) hrest
      simp only [hseal]
      exact ⟨host', rfl, hfinal⟩

theorem hostWriteEntries_confined (allowed : String → Bool) (zip : Zip) (host : Host)
    (count : ℕ) :
    Confined cwd root host (hostWriteEntries cwd root allowed host count zip).2 := by
  induction zip generalizing host count with
  | nil => exact Confined.refl cwd root host
  | cons entry rest ih =>
    unfold hostWriteEntries
    cases payloadRel entry with
    | none => exact ih host count
    | some rel =>
      simp only
      by_cases ha : allowed rel = true
      · have hstep : Confined cwd root host (hostWriteSafe cwd root host rel entry.bytes).2 :=
          hostWriteSafe_confined
        rw [if_pos ha]
        split
        · rename_i e host' hw
          rwa [hw] at hstep
        · rename_i host' hw
          rw [hw] at hstep
          exact hstep.trans (ih host' (count + 1))
      · rw [if_neg ha]
        exact ih host count

theorem hostDecryptFiles_confined (zip : Zip) (contentKey : Key) (access : Access)
    (specs : List PayloadFile) (host : Host) (exported : ℕ) :
    Confined cwd root host
      (hostDecryptFiles C cwd root zip contentKey access host exported specs).2 := by
  induction specs generalizing host exported with
  | nil => exact Confined.refl cwd root host
  | cons spec rest ih =>
    unfold hostDecryptFiles
    by_cases ha : access.allowsPath spec.path = true
    · rw [if_pos ha]
      cases decryptFile C zip contentKey spec with
      | error e => exact Confined.refl cwd root host
      | ok plaintext =>
        have hstep : Confined cwd root host (hostWriteSafe cwd root host spec.path plaintext).2 :=
          hostWriteSafe_confined
        simp only
        split
        · rename_i e host' hw
          rwa [hw] at hstep
        · rename_i host' hw
          rw [hw] at hstep
          exact hstep.trans (ih host' (exported + 1))
    · rw [if_neg ha]
      exact ih host exported

theorem hostSealFile_confined (r : SealRequest) (i : ℕ) (p : RelPath) (plaintext : Bytes)
    (host : Host) :
    Confined cwd root host (hostSealFile C cwd root r i p plaintext host).2 := by
  unfold hostSealFile
  split
  · exact Confined.refl cwd root host
  · rename_i rel hrel
    split
    · exact Confined.refl cwd root host
    · rename_i ciphertext hc
      have hstep : Confined cwd root host (hostWrite cwd root host rel ciphertext).2 :=
        hostWrite_confined (relPath_ok hrel).2
      split
      · rename_i e host' hw
        rwa [hw] at hstep
      · rename_i host' hw
        rwa [hw] at hstep

theorem hostSealFiles_confined (r : SealRequest) (files : List (RelPath × Bytes)) (i : ℕ)
    (host : Host) : Confined cwd root host (hostSealFiles C cwd root r i files host).2 := by
  induction files generalizing i host with
  | nil => exact Confined.refl cwd root host
  | cons file rest ih =>
    obtain ⟨p, plaintext⟩ := file
    have hstep : Confined cwd root host (hostSealFile C cwd root r i p plaintext host).2 :=
      hostSealFile_confined r i p plaintext host
    unfold hostSealFiles
    split
    · rename_i e host' hw
      rwa [hw] at hstep
    · rename_i spec host' hw
      rw [hw] at hstep
      have hrest := hstep.trans (ih (i + 1) host')
      split
      · rename_i e final hf
        rwa [hf] at hrest
      · rename_i specs final hf
        rwa [hf] at hrest

theorem hostSealFile_refused (r : SealRequest) (i : ℕ) (p : RelPath) (plaintext : Bytes)
    (host : Host) (h : ¬ StrictlyBelow (resolve cwd root)
      (resolve cwd (join root (replaceChar (pathString p) '\\' '/')))) :
    ∃ e after, hostSealFile C cwd root r i p plaintext host = (.error e, after) ∧
      after.tree.files = host.tree.files ∧ after.written = host.written := by
  unfold hostSealFile
  split
  · exact ⟨_, host, rfl, rfl, rfl⟩
  · rename_i rel hrel
    obtain ⟨rfl, hv⟩ := relPath_ok hrel
    split
    · exact ⟨_, host, rfl, rfl, rfl⟩
    · rename_i ciphertext hc
      obtain ⟨e, after, hw, hsame⟩ := hostWrite_refused host ciphertext hv h
      rw [hw]
      exact ⟨e, after, rfl, hsame⟩

theorem hostRequireExport_snd (x : Result ℕ × Host) : (hostRequireExport x).2 = x.2 := by
  rcases x with ⟨_ | _, _⟩ <;> rfl

theorem hostOpenPlain_confined (zip : Zip) (access : Access) (host : Host) :
    Confined cwd root host (hostOpenPlain cwd root zip access host).2 := by
  rw [hostOpenPlain, hostRequireExport_snd]
  exact hostWriteEntries_confined _ zip host 0

theorem hostOpenEncrypted_confined (zip : Zip) (manifest : QcapManifest) (identity : Identity)
    (passphrase : Option String) (access : Access) (host : Host) : Confined cwd root host
      (hostOpenEncrypted C cwd root J zip manifest identity passphrase access host).2 := by
  unfold hostOpenEncrypted
  split
  · exact Confined.refl cwd root host
  · rw [hostRequireExport_snd]
    exact hostDecryptFiles_confined zip _ access manifest.files host 0

end

/-- Extraction, both exports and sealing change files strictly below their root only, and
refuse every other name before anything is written for it. -/
theorem writes_confined (C : Primitives) (J : JsonCodec) (cwd : RelPath) (root : String)
    (host : Host) :
    (∀ zip, Confined cwd root host
      (hostWriteEntries cwd root (fun _ => true) host 0 zip).2) ∧
    (∀ zip access, Confined cwd root host (hostOpenPlain cwd root zip access host).2) ∧
    (∀ zip manifest identity passphrase access, Confined cwd root host
      (hostOpenEncrypted C cwd root J zip manifest identity passphrase access host).2) ∧
    (∀ r files, Confined cwd root host (hostSealFiles C cwd root r 0 files host).2) ∧
    (∀ rel bytes, ¬ StrictlyBelow (resolve cwd root) (resolve cwd (join root rel)) →
      ∃ e after, hostWriteSafe cwd root host rel bytes = (.error e, after) ∧
        after.tree.files = host.tree.files ∧ after.written = host.written) ∧
    ∀ r i p plaintext, ¬ StrictlyBelow (resolve cwd root)
        (resolve cwd (join root (replaceChar (pathString p) '\\' '/'))) →
      ∃ e after, hostSealFile C cwd root r i p plaintext host = (.error e, after) ∧
        after.tree.files = host.tree.files ∧ after.written = host.written :=
  ⟨fun zip => hostWriteEntries_confined _ zip host 0,
    fun zip access => hostOpenPlain_confined zip access host,
    fun zip manifest identity passphrase access =>
      hostOpenEncrypted_confined zip manifest identity passphrase access host,
    fun r files => hostSealFiles_confined r files 0 host,
    fun _ _ h => hostWriteSafe_refused h,
    fun r i p plaintext h => hostSealFile_refused r i p plaintext host h⟩

def tmpHost : Host := ⟨(writeUnder Tree.empty "tmp/x" [1]).2, []⟩

theorem climbing_name_refused :
    ∃ e after, hostWriteSafe ["home"] "/tmp/out" tmpHost "a/../../x" [2] = (.error e, after) ∧
      after.tree.files = tmpHost.tree.files ∧ after.written = tmpHost.written := by
  refine (writes_confined toy (Json.documentCodec [] [] []) ["home"] "/tmp/out"
    tmpHost).2.2.2.2.1 "a/../../x" [2] ?_
  rintro ⟨name, rest, h⟩
  have hresolve : resolve ["home"] (join "/tmp/out" "a/../../x") = ["tmp", "x"] := by decide
  have hroot : resolve ["home"] "/tmp/out" = ["tmp", "out"] := by decide
  rw [hresolve, hroot] at h
  simp at h

end QCap.HostWrites

import QCap.OpenArchive

/-!
# Exports on a host that fails

Both export loops take one file after the other, and any call of the host can fail: the archive
cannot be read again, a directory or a file cannot be made, a write stops in the middle of a
file that is already truncated. What a failed open leaves behind is what was written until then.
-/
namespace QCap.FaultyExport

open QCap.Text QCap.PathTree QCap.Crypto QCap.Formats QCap.Signatures QCap.Capability
open QCap.Revocation QCap.Identity QCap.KeyWrap QCap.Archive QCap.OpenArchive

variable (C : Primitives) (J : JsonCodec)

inductive FileFault where
  | none
  /-- `by_index` or `by_name` fails. -/
  | entry
  /-- `read_to_end` fails. -/
  | content
  | directories (made : ℕ)
  /-- `fs::write` cannot open the file. -/
  | opening
  | writing (taken : ℕ)
  deriving DecidableEq

/-- Files are counted as the loop counts them: entries of the archive, or of the manifest. -/
structure ExportFaults where
  verifying : Option Error
  reopening : Option Error
  file : ℕ → FileFault

def ExportFaults.none : ExportFaults := ⟨Option.none, Option.none, fun _ => .none⟩

def writeSafe (fault : FileFault) (root : Tree) (rel : String) (bytes : Bytes) :
    Result Unit × Tree :=
  match validateRelativePath rel with
  | .error e => (.error e, root)
  | .ok () =>
    match fault with
    | .directories made =>
      match root.createDirAll ((destination rel).dropLast.take made) with
      | .error e => (.error e, root)
      | .ok root' => (.error .fileSystem, root')
    | .opening =>
      match root.createDirAll (destination rel).dropLast with
      | .error e => (.error e, root)
      | .ok root' => (.error .fileSystem, root')
    | .writing taken =>
      match writeUnder root rel (bytes.take taken) with
      | (.error e, root') => (.error e, root')
      | (.ok (), root') => (.error .fileSystem, root')
    | .none | .entry | .content => writeUnder root rel bytes

def writeEntries (faults : ℕ → FileFault) (allowed : String → Bool) (out : Tree)
    (index exported : ℕ) : Zip → Result ℕ × Tree
  | [] => (.ok exported, out)
  | entry :: rest =>
    if faults index = .entry then (.error .zip, out)
    else
      match payloadRel entry with
      | none => writeEntries faults allowed out (index + 1) exported rest
      | some rel =>
        if allowed rel then
          if faults index = .content then (.error .zip, out)
          else
            match writeSafe (faults index) out rel entry.bytes with
            | (.error e, out') => (.error e, out')
            | (.ok (), out') =>
              writeEntries faults allowed out' (index + 1) (exported + 1) rest
        else writeEntries faults allowed out (index + 1) exported rest

/-- One file of `open_encrypted`, up to its plaintext. -/
def decryptFile (fault : FileFault) (zip : Zip) (contentKey : Key) (spec : PayloadFile) :
    Result Bytes :=
  if fault = .entry ∨ fault = .content then .error .zip
  else OpenArchive.decryptFile C zip contentKey spec

def decryptFiles (faults : ℕ → FileFault) (zip : Zip) (contentKey : Key) (access : Access)
    (out : Tree) (index exported : ℕ) : List PayloadFile → Result ℕ × Tree
  | [] => (.ok exported, out)
  | spec :: rest =>
    if access.allowsPath spec.path then
      match decryptFile C (faults index) zip contentKey spec with
      | .error e => (.error e, out)
      | .ok plaintext =>
        match writeSafe (faults index) out spec.path plaintext with
        | (.error e, out') => (.error e, out')
        | (.ok (), out') =>
          decryptFiles faults zip contentKey access out' (index + 1) (exported + 1) rest
    else decryptFiles faults zip contentKey access out (index + 1) exported rest

def openEncrypted (faults : ExportFaults) (zip : Zip) (manifest : QcapManifest)
    (identity : Identity) (passphrase : Option String) (access : Access) (out : Tree) :
    Result Unit × Tree :=
  match contentKeyFor C J manifest identity passphrase with
  | .error e => (.error e, out)
  | .ok key =>
    match faults.reopening with
    | some e => (.error e, out)
    | none => requireExport (decryptFiles C faults.file zip key access out 0 0 manifest.files)

def openPlain (faults : ExportFaults) (zip : Zip) (access : Access) (out : Tree) :
    Result Unit × Tree :=
  match faults.reopening with
  | some e => (.error e, out)
  | none => requireExport (writeEntries faults.file access.allowsPath out 0 0 zip)

def exportPayload (faults : ExportFaults) (r : OpenRequest) (report : VerifyReport)
    (identity : Identity) (access : Access) (out : Tree) : Result Unit × Tree :=
  if report.manifest.encrypted then
    match identityPassphrase identity r.passphrase with
    | .error e => (.error e, out)
    | .ok passphrase =>
      match r.createOut with
      | .error e => (.error e, out)
      | .ok () => openEncrypted C J faults r.file report.manifest identity passphrase access out
  else
    match r.createOut with
    | .error e => (.error e, out)
    | .ok () => openPlain faults r.file access out

/-- `open_archive`. A host that fails in `verify_archive` ends it there. -/
def openArchive (faults : ExportFaults) (r : OpenRequest) (out : Tree) : Result Unit × Tree :=
  match faults.verifying with
  | some e => (.error e, out)
  | none =>
    match authorize C J r with
    | .error e => (.error e, out)
    | .ok (report, identity, access) => exportPayload C J faults r report identity access out

theorem writeSafe_none (root : Tree) (rel : String) (bytes : Bytes) :
    writeSafe .none root rel bytes = PathTree.writeSafe root rel bytes := by
  unfold writeSafe PathTree.writeSafe
  cases validateRelativePath rel <;> rfl

theorem writeEntries_none (allowed : String → Bool) (zip : Zip) (out : Tree)
    (index exported : ℕ) : writeEntries (fun _ => .none) allowed out index exported zip =
      Archive.writeEntries allowed out exported zip := by
  induction zip generalizing out index exported with
  | nil => rfl
  | cons entry rest ih =>
    rw [writeEntries, if_neg (by decide), Archive.writeEntries]
    cases payloadRel entry with
    | none => exact ih out (index + 1) exported
    | some rel =>
      dsimp only
      by_cases ha : allowed rel = true
      · rw [if_pos ha, if_pos ha, if_neg (by decide), writeSafe_none]
        rcases PathTree.writeSafe out rel entry.bytes with ⟨_ | _, out'⟩
        · rfl
        · exact ih out' (index + 1) (exported + 1)
      · rw [if_neg ha, if_neg ha]
        exact ih out (index + 1) exported

theorem decryptFiles_none (zip : Zip) (key : Key) (access : Access) (specs : List PayloadFile)
    (out : Tree) (index exported : ℕ) :
    decryptFiles C (fun _ => .none) zip key access out index exported specs =
      OpenArchive.decryptFiles C zip key access out exported specs := by
  induction specs generalizing out index exported with
  | nil => rfl
  | cons spec rest ih =>
    rw [decryptFiles, OpenArchive.decryptFiles]
    by_cases ha : access.allowsPath spec.path = true
    · rw [if_pos ha, if_pos ha, decryptFile, if_neg (by decide)]
      cases OpenArchive.decryptFile C zip key spec with
      | error e => rfl
      | ok plaintext =>
        dsimp only
        rw [writeSafe_none]
        rcases PathTree.writeSafe out spec.path plaintext with ⟨_ | _, out'⟩
        · rfl
        · exact ih out' (index + 1) (exported + 1)
    · rw [if_neg ha, if_neg ha]
      exact ih out (index + 1) exported

theorem exportPayload_none (r : OpenRequest) (report : VerifyReport) (identity : Identity)
    (access : Access) (out : Tree) :
    exportPayload C J .none r report identity access out =
      OpenArchive.exportPayload C J r report identity access out := by
  have hplain : openPlain .none r.file access out = OpenArchive.openPlain r.file access out :=
    congrArg requireExport (writeEntries_none access.allowsPath r.file out 0 0)
  have hencrypted (passphrase : Option String) :
      openEncrypted C J .none r.file report.manifest identity passphrase access out =
        OpenArchive.openEncrypted C J r.file report.manifest identity passphrase access out := by
    unfold openEncrypted OpenArchive.openEncrypted
    cases contentKeyFor C J report.manifest identity passphrase with
    | error e => rfl
    | ok key => exact congrArg requireExport (decryptFiles_none C r.file key access _ out 0 0)
  unfold exportPayload OpenArchive.exportPayload
  by_cases he : report.manifest.encrypted = true
  · rw [if_pos he, if_pos he]
    cases identityPassphrase identity r.passphrase with
    | error e => rfl
    | ok passphrase =>
      cases r.createOut with
      | error e => rfl
      | ok _ => exact hencrypted passphrase
  · rw [if_neg he, if_neg he]
    cases r.createOut with
    | error e => rfl
    | ok _ => exact hplain

/-- On a host that does not fail this is the command of before. -/
theorem openArchive_none (r : OpenRequest) (out : Tree) :
    openArchive C J .none r out = OpenArchive.openArchive C J r out := by
  unfold openArchive OpenArchive.openArchive
  rcases authorize C J r with e | ⟨report, identity, access⟩
  · rfl
  · exact exportPayload_none C J r report identity access out

structure Turn where
  rel : String
  content : Result Bytes
  fault : FileFault

def runTurns (exported : ℕ) (out : Tree) : List Turn → Result ℕ × Tree
  | [] => (.ok exported, out)
  | turn :: rest =>
    match turn.content with
    | .error e => (.error e, out)
    | .ok bytes =>
      match writeSafe turn.fault out turn.rel bytes with
      | (.error e, out') => (.error e, out')
      | (.ok (), out') => runTurns (exported + 1) out' rest

def plainTurns (faults : ℕ → FileFault) (access : Access) : ℕ → Zip → List Turn
  | _, [] => []
  | index, entry :: rest =>
    if faults index = .entry then [⟨entry.name, .error .zip, .entry⟩]
    else
      match (payloadRel entry).filter access.allowsPath with
      | none => plainTurns faults access (index + 1) rest
      | some rel =>
        ⟨rel, if faults index = .content then .error .zip else .ok entry.bytes, faults index⟩ ::
          plainTurns faults access (index + 1) rest

def sealedTurns (faults : ℕ → FileFault) (zip : Zip) (key : Key) (access : Access) :
    ℕ → List PayloadFile → List Turn
  | _, [] => []
  | index, spec :: rest =>
    if access.allowsPath spec.path then
      ⟨spec.path, decryptFile C (faults index) zip key spec, faults index⟩ ::
        sealedTurns faults zip key access (index + 1) rest
    else sealedTurns faults zip key access (index + 1) rest

theorem writeEntries_turns (faults : ℕ → FileFault) (access : Access) (zip : Zip) (out : Tree)
    (index exported : ℕ) : writeEntries faults access.allowsPath out index exported zip =
      runTurns exported out (plainTurns faults access index zip) := by
  induction zip generalizing out index exported with
  | nil => rfl
  | cons entry rest ih =>
    rw [writeEntries, plainTurns]
    by_cases hentry : faults index = .entry
    · rw [if_pos hentry, if_pos hentry]
      rfl
    rw [if_neg hentry, if_neg hentry]
    cases payloadRel entry with
    | none => exact ih out (index + 1) exported
    | some rel =>
      by_cases ha : access.allowsPath rel = true
      · rw [Option.filter_some, if_pos ha]
        dsimp only
        rw [if_pos ha, runTurns]
        by_cases hcontent : faults index = .content
        · rw [if_pos hcontent, if_pos hcontent]
        · rw [if_neg hcontent, if_neg hcontent]
          dsimp only
          rcases writeSafe (faults index) out rel entry.bytes with ⟨_ | _, out'⟩
          · rfl
          · exact ih out' (index + 1) (exported + 1)
      · rw [Option.filter_some, if_neg ha]
        dsimp only
        rw [if_neg ha]
        exact ih out (index + 1) exported

theorem decryptFiles_turns (faults : ℕ → FileFault) (zip : Zip) (key : Key) (access : Access)
    (specs : List PayloadFile) (out : Tree) (index exported : ℕ) :
    decryptFiles C faults zip key access out index exported specs =
      runTurns exported out (sealedTurns C faults zip key access index specs) := by
  induction specs generalizing out index exported with
  | nil => rfl
  | cons spec rest ih =>
    rw [decryptFiles, sealedTurns]
    by_cases ha : access.allowsPath spec.path = true
    · rw [if_pos ha, if_pos ha, runTurns]
      dsimp only
      cases decryptFile C (faults index) zip key spec with
      | error e => rfl
      | ok plaintext =>
        dsimp only
        rcases writeSafe (faults index) out spec.path plaintext with ⟨_ | _, out'⟩
        · rfl
        · exact ih out' (index + 1) (exported + 1)
    · rw [if_neg ha, if_neg ha]
      exact ih out (index + 1) exported

/-- What a turn needs after the writes before it: its bytes, a name that is accepted and ends
in a name, no NUL, no file above its destination and no directory at it. -/
structure Reaches (out : Tree) (before : List FileWrite) (turn : Turn) (bytes : Bytes) :
    Prop where
  content : turn.content = .ok bytes
  valid : validateRelativePath turn.rel = .ok ()
  ends_in_name : endsInName turn.rel = true
  ne_nil : destination turn.rel ≠ []
  names : ∀ n ∈ destination turn.rel, FileName n
  no_file_above : ∀ q, q <+: (destination turn.rel).dropLast →
    q ∉ out.files ∧ ∀ w ∈ before, destination w.1 ≠ q
  no_directory : destination turn.rel ∉ out.dirs ∧
    ∀ w ∈ before, ¬ destination turn.rel <+: (destination w.1).dropLast

def FileFault.stops : FileFault → Bool
  | .directories _ | .opening | .writing _ => true
  | .none | .entry | .content => false

def Passes (out : Tree) (before : List FileWrite) (turn : Turn) : Prop :=
  turn.fault.stops = false ∧ ∃ bytes, Reaches out before turn bytes

inductive Leaves (out : Tree) (before : List FileWrite) (turn : Turn) : List FileWrite → Prop
  | stopped {bytes : Bytes} {taken : ℕ} : Reaches out before turn bytes →
      turn.fault = .writing taken → Leaves out before turn [(turn.rel, bytes.take taken)]
  | nothing : (∀ bytes taken, Reaches out before turn bytes → turn.fault ≠ .writing taken) →
      Leaves out before turn []

/-- Turns that all pass, one after the other, with what they write. -/
inductive Passed (out : Tree) : List Turn → List FileWrite → Prop
  | nil : Passed out [] []
  | snoc {turns : List Turn} {writes : List FileWrite} {turn : Turn} {bytes : Bytes} :
      Passed out turns writes → turn.fault.stops = false → Reaches out writes turn bytes →
        Passed out (turns ++ [turn]) (writes ++ [(turn.rel, bytes)])

/-- The turn `turn` is the first that fails, and `writes` is all that was written by then. -/
inductive FailsAt (out : Tree) (turns : List Turn) : List FileWrite → Prop
  | intro {before after : List Turn} {turn : Turn} {writes begun : List FileWrite} :
      turns = before ++ turn :: after → Passed out before writes → ¬ Passes out writes turn →
        Leaves out writes turn begun → FailsAt out turns (writes ++ begun)

/-- The tree has, wherever something is written, what is written there last. -/
def Held (out : Tree) (writes : List FileWrite) : Prop :=
  ∀ p b, lastWrite writes p = some b → out.read p = some b

theorem wrote_append {writes more : List FileWrite} {t t' : Tree} :
    Wrote (writes ++ more) t t' ↔ ∃ m, Wrote writes t m ∧ Wrote more m t' := by
  induction writes generalizing t with
  | nil =>
    constructor
    · intro h
      exact ⟨t, rfl, h⟩
    · rintro ⟨m, rfl, h⟩
      exact h
  | cons w writes ih =>
    constructor
    · rintro ⟨m, hm, hr⟩
      obtain ⟨m', hm', hw⟩ := ih.mp hr
      exact ⟨m', ⟨m, hm, hm'⟩, hw⟩
    · rintro ⟨m', ⟨m, hm, hm'⟩, hw⟩
      exact ⟨m, hm, ih.mpr ⟨m', hm', hw⟩⟩

theorem wrote_singleton {w : FileWrite} {t t' : Tree} :
    Wrote [w] t t' ↔ writeUnder t w.1 w.2 = (.ok (), t') := by
  constructor
  · rintro ⟨m, hm, rfl⟩
    exact hm
  · intro h
    exact ⟨t', h, rfl⟩

theorem wrote_files {writes : List FileWrite} {t m : Tree} (h : Wrote writes t m) (p : RelPath) :
    p ∈ m.files ↔ p ∈ t.files ∨ ∃ w ∈ writes, destination w.1 = p := by
  induction writes generalizing t with
  | nil => simp [show m = t from h]
  | cons w writes ih =>
    obtain ⟨t', hw, hr⟩ := h
    rw [ih hr, (writeUnder_ok hw).1, AList.mem_insert]
    simp only [List.mem_cons, exists_eq_or_imp]
    constructor
    · rintro ((rfl | h) | h)
      · exact Or.inr (Or.inl rfl)
      · exact Or.inl h
      · exact Or.inr (Or.inr h)
    · rintro (h | rfl | h)
      · exact Or.inl (Or.inr h)
      · exact Or.inl (Or.inl rfl)
      · exact Or.inr h

theorem wrote_dirs {writes : List FileWrite} {t m : Tree} (h : Wrote writes t m) (p : RelPath) :
    p ∈ m.dirs ↔ p ∈ t.dirs ∨ ∃ w ∈ writes, p <+: (destination w.1).dropLast := by
  induction writes generalizing t with
  | nil => simp [show m = t from h]
  | cons w writes ih =>
    obtain ⟨t', hw, hr⟩ := h
    rw [ih hr, (writeUnder_ok hw).2, List.mem_append, List.mem_inits]
    simp only [List.mem_cons, exists_eq_or_imp]
    tauto

theorem reaches_iff {out m : Tree} {before : List FileWrite} {turn : Turn} {bytes : Bytes}
    (h : Wrote before out m) : Reaches out before turn bytes ↔
      turn.content = .ok bytes ∧ validateRelativePath turn.rel = .ok () ∧
        m.Receives turn.rel := by
  constructor
  · rintro ⟨hc, hv, hend, hne, hn, habove, hdir⟩
    refine ⟨hc, hv, hend, hne, hn, ?_, ?_⟩
    · intro q hq
      rw [wrote_files h, not_or]
      obtain ⟨hout, hbefore⟩ := habove q ((List.mem_inits _ _).mp hq)
      exact ⟨hout, fun ⟨w, hw, he⟩ => hbefore w hw he⟩
    · rw [wrote_dirs h, not_or]
      exact ⟨hdir.1, fun ⟨w, hw, hp⟩ => hdir.2 w hw hp⟩
  · rintro ⟨hc, hv, hend, hne, hn, habove, hdir⟩
    rw [wrote_dirs h, not_or] at hdir
    refine ⟨hc, hv, hend, hne, hn, ?_, hdir.1, fun w hw hp => hdir.2 ⟨w, hw, hp⟩⟩
    intro q hq
    have hfile := habove q ((List.mem_inits _ _).mpr hq)
    rw [wrote_files h, not_or] at hfile
    exact ⟨hfile.1, fun w hw he => hfile.2 ⟨w, hw, he⟩⟩

/-- A write is one of the tree unless the host stops it, and then it leaves the files or the
beginning of the new one. -/
theorem writeSafe_cases (fault : FileFault) (t : Tree) (rel : String) (bytes : Bytes) :
    (fault.stops = false ∧ writeSafe fault t rel bytes = PathTree.writeSafe t rel bytes) ∨
    (∃ taken e t', fault = .writing taken ∧ writeSafe fault t rel bytes = (.error e, t') ∧
      t'.files = (PathTree.writeSafe t rel (bytes.take taken)).2.files) ∨
    (fault.stops = true ∧ (∀ taken, fault ≠ .writing taken) ∧
      ∃ e t', writeSafe fault t rel bytes = (.error e, t') ∧ t'.files = t.files) := by
  have hmake : ∀ p e, ∃ e' t', (match t.createDirAll p with
      | .error e' => (.error e', t)
      | .ok root' => (.error e, root') : Result Unit × Tree) = (.error e', t') ∧
        t'.files = t.files := by
    intro p e
    rcases createDirAll_cases t p with ⟨-, t', h, hf, -⟩ | ⟨-, h⟩
    · rw [h]
      exact ⟨_, _, rfl, hf⟩
    · rw [h]
      exact ⟨_, _, rfl, rfl⟩
  cases hv : validateRelativePath rel with
  | error e =>
    have hrefuse : writeSafe fault t rel bytes = (.error e, t) := by rw [writeSafe.eq_def, hv]
    have hplain : ∀ b, PathTree.writeSafe t rel b = (.error e, t) := by
      intro b
      rw [PathTree.writeSafe, hv]
    cases fault with
    | writing taken => exact .inr (.inl ⟨taken, e, t, rfl, hrefuse, by rw [hplain]⟩)
    | directories made => exact .inr (.inr ⟨rfl, by simp, e, t, hrefuse, rfl⟩)
    | opening => exact .inr (.inr ⟨rfl, by simp, e, t, hrefuse, rfl⟩)
    | none | entry | content => exact .inl ⟨rfl, by rw [hrefuse, hplain]⟩
  | ok u =>
    cases fault with
    | none | entry | content => exact .inl ⟨rfl, by rw [writeSafe.eq_def, PathTree.writeSafe, hv]⟩
    | directories made =>
      refine .inr (.inr ⟨rfl, by simp, ?_⟩)
      rw [writeSafe.eq_def, hv]
      exact hmake _ _
    | opening =>
      refine .inr (.inr ⟨rfl, by simp, ?_⟩)
      rw [writeSafe.eq_def, hv]
      exact hmake _ _
    | writing taken =>
      right
      left
      have hplain : PathTree.writeSafe t rel (bytes.take taken) =
          writeUnder t rel (bytes.take taken) := by rw [PathTree.writeSafe, hv]
      rw [writeSafe.eq_def, hv]
      dsimp only
      rcases hw : writeUnder t rel (bytes.take taken) with ⟨_ | _, t'⟩
      · exact ⟨taken, _, t', rfl, rfl, by rw [hplain, hw]⟩
      · exact ⟨taken, _, t', rfl, rfl, by rw [hplain, hw]⟩

theorem receives_safe {t t' : Tree} {rel : String} {bytes : Bytes}
    (h : PathTree.writeSafe t rel bytes = (.ok (), t')) :
    validateRelativePath rel = .ok () ∧ t.Receives rel := by
  obtain ⟨hv, hu⟩ := writeSafe_ok h
  exact ⟨hv, writeUnder_found hu⟩

theorem safe_receives {t : Tree} {rel : String} (hv : validateRelativePath rel = .ok ())
    (hr : t.Receives rel) (bytes : Bytes) :
    ∃ t', PathTree.writeSafe t rel bytes = (.ok (), t') ∧ Wrote [(rel, bytes)] t t' := by
  obtain ⟨t', hw⟩ := hr.write bytes
  refine ⟨t', ?_, wrote_singleton.mpr hw⟩
  rw [PathTree.writeSafe, hv]
  exact hw

theorem turn_passes {out m : Tree} {writes : List FileWrite} {turn : Turn} {bytes : Bytes}
    (h : Wrote writes out m) (hs : turn.fault.stops = false)
    (hr : Reaches out writes turn bytes) :
    ∃ m', Wrote (writes ++ [(turn.rel, bytes)]) out m' ∧
      ∀ n after, runTurns n m (turn :: after) = runTurns (n + 1) m' after := by
  obtain ⟨hc, hv, hreceives⟩ := (reaches_iff h).mp hr
  obtain ⟨m', hsafe, hwrote⟩ := safe_receives hv hreceives bytes
  refine ⟨m', wrote_append.mpr ⟨m, h, hwrote⟩, ?_⟩
  have hwrite : writeSafe turn.fault m turn.rel bytes = (.ok (), m') := by
    rcases writeSafe_cases turn.fault m turn.rel bytes with
      ⟨-, hw⟩ | ⟨taken, e, t', hf, -⟩ | ⟨hstop, -⟩
    · rw [hw, hsafe]
    · rw [hf] at hs
      cases hs
    · rw [hs] at hstop
      cases hstop
  intro n after
  rw [runTurns, hc]
  simp only [hwrite]

theorem turn_fails {out m : Tree} {writes begun : List FileWrite} {turn : Turn}
    (h : Wrote writes out m) (hf : ¬ Passes out writes turn)
    (hl : Leaves out writes turn begun) :
    ∃ e out' m', (∀ n after, runTurns n m (turn :: after) = (.error e, out')) ∧
      Wrote (writes ++ begun) out m' ∧ out'.files = m'.files := by
  have hnothing : (∀ bytes taken, Reaches out writes turn bytes → turn.fault ≠ .writing taken) →
      begun = [] := by
    intro hno
    cases hl with
    | stopped hr hwriting => exact absurd hwriting (hno _ _ hr)
    | nothing _ => rfl
  -- a turn that leaves the files as they were
  have hsame : ∀ e out', (∀ n after, runTurns n m (turn :: after) = (.error e, out')) →
      (∀ bytes taken, Reaches out writes turn bytes → turn.fault ≠ .writing taken) →
      out'.files = m.files → ∃ e out' m',
        (∀ n after, runTurns n m (turn :: after) = (.error e, out')) ∧
          Wrote (writes ++ begun) out m' ∧ out'.files = m'.files := by
    intro e out' hrun hno hfiles
    refine ⟨e, out', m, hrun, ?_, hfiles⟩
    rw [hnothing hno, List.append_nil]
    exact h
  cases hc : turn.content with
  | error e =>
    refine hsame e m ?_ ?_ rfl
    · intro n after
      rw [runTurns, hc]
    · intro bytes taken hr
      cases hc.symm.trans hr.content
  | ok bytes =>
    have hrun : ∀ e out', writeSafe turn.fault m turn.rel bytes = (.error e, out') →
        ∀ n after, runTurns n m (turn :: after) = (.error e, out') := by
      intro e out' hw n after
      rw [runTurns, hc]
      simp only [hw]
    rcases writeSafe_cases turn.fault m turn.rel bytes with
      ⟨hs, hw⟩ | ⟨taken, e, t', hfault, hw, hfiles⟩ | ⟨-, hno, e, t', hw, hfiles⟩
    · rcases hsafe : PathTree.writeSafe m turn.rel bytes with ⟨e | u, m₁⟩
      · refine hsame e m₁ (hrun e m₁ (hw.trans hsafe)) ?_ (writeSafe_error hsafe)
        intro _ taken _ hwriting
        rw [hwriting] at hs
        cases hs
      · obtain ⟨hv, hr⟩ := receives_safe hsafe
        exact absurd ⟨hs, bytes, (reaches_iff h).mpr ⟨hc, hv, hr⟩⟩ hf
    · rcases hsafe : PathTree.writeSafe m turn.rel (bytes.take taken) with ⟨e' | u, m₁⟩
      · rw [hsafe] at hfiles
        refine hsame e t' (hrun e t' hw) ?_ (hfiles.trans (writeSafe_error hsafe))
        intro _ _ hr _
        obtain ⟨-, hv, hreceives⟩ := (reaches_iff h).mp hr
        obtain ⟨m₂, hsafe', -⟩ := safe_receives hv hreceives (bytes.take taken)
        cases hsafe.symm.trans hsafe'
      · obtain ⟨hv, hr⟩ := receives_safe hsafe
        have hreach : Reaches out writes turn bytes := (reaches_iff h).mpr ⟨hc, hv, hr⟩
        rw [hsafe] at hfiles
        cases hl with
        | stopped hr' hfault' =>
          cases hfault.symm.trans hfault'
          cases hc.symm.trans hr'.content
          exact ⟨e, t', m₁, hrun e t' hw, wrote_append.mpr
            ⟨m, h, wrote_singleton.mpr (writeSafe_ok hsafe).2⟩, hfiles⟩
        | nothing hno => exact absurd hfault (hno bytes taken hreach)
    · exact hsame e t' (hrun e t' hw) (fun _ taken _ => hno taken) hfiles

theorem leaves_exists (out : Tree) (before : List FileWrite) (turn : Turn) :
    ∃ begun, Leaves out before turn begun := by
  by_cases h : ∃ bytes taken, Reaches out before turn bytes ∧ turn.fault = .writing taken
  · obtain ⟨bytes, taken, hr, hf⟩ := h
    exact ⟨_, .stopped hr hf⟩
  · exact ⟨[], .nothing fun bytes taken hr hf => h ⟨bytes, taken, hr, hf⟩⟩

theorem Passed.run {out : Tree} {turns : List Turn} {writes : List FileWrite}
    (h : Passed out turns writes) : ∃ m, Wrote writes out m ∧
      ∀ n rest, runTurns n out (turns ++ rest) = runTurns (n + turns.length) m rest := by
  induction h with
  | nil => exact ⟨out, rfl, fun _ _ => rfl⟩
  | @snoc turns writes turn bytes _ hs hr ih =>
    obtain ⟨m, hm, hrun⟩ := ih
    obtain ⟨m', hm', hturn⟩ := turn_passes hm hs hr
    refine ⟨m', hm', ?_⟩
    intro n rest
    rw [List.append_assoc, hrun, List.singleton_append, hturn, List.length_append,
      List.length_singleton, Nat.add_assoc]

theorem FailsAt.run {out : Tree} {turns : List Turn} {writes : List FileWrite}
    (h : FailsAt out turns writes) (n : ℕ) :
    ∃ e out' m, runTurns n out turns = (.error e, out') ∧ Wrote writes out m ∧
      out'.files = m.files := by
  obtain ⟨rfl, hpassed, hf, hl⟩ := h
  obtain ⟨m, hm, hrun⟩ := hpassed.run
  obtain ⟨e, out', m', hturn, hm', hfiles⟩ := turn_fails hm hf hl
  exact ⟨e, out', m', (hrun n _).trans (hturn _ _), hm', hfiles⟩

theorem passed_or_fails (out : Tree) (turns : List Turn) :
    (∃ writes, Passed out turns writes) ∨ ∃ writes, FailsAt out turns writes := by
  have hrest : ∀ rest before writes, Passed out before writes →
      (∃ writes, Passed out (before ++ rest) writes) ∨
        ∃ writes, FailsAt out (before ++ rest) writes := by
    intro rest
    induction rest with
    | nil =>
      intro before writes h
      rw [List.append_nil]
      exact .inl ⟨writes, h⟩
    | cons turn rest ih =>
      intro before writes h
      by_cases hp : Passes out writes turn
      · obtain ⟨hs, bytes, hr⟩ := hp
        have hnext := ih (before ++ [turn]) _ (h.snoc hs hr)
        rwa [List.append_assoc, List.singleton_append] at hnext
      · obtain ⟨begun, hl⟩ := leaves_exists out writes turn
        exact .inr ⟨_, .intro rfl h hp hl⟩
  exact hrest turns [] [] .nil

theorem held_iff {writes : List FileWrite} {out m : Tree} (h : Wrote writes out m) :
    Held out writes ↔ ∀ p, m.read p = out.read p := by
  constructor
  · intro hheld p
    rw [wrote_read h]
    cases hl : lastWrite writes p with
    | none => rfl
    | some b => exact (hheld p b hl).symm
  · intro hsame p b hl
    rw [← hsame, wrote_read h, hl]
    rfl

theorem FailsAt.held_iff {out out' : Tree} {turns : List Turn} {writes : List FileWrite}
    {n : ℕ} {result : Result ℕ} (h : FailsAt out turns writes)
    (hrun : runTurns n out turns = (result, out')) :
    Held out writes ↔ ∀ p, out'.read p = out.read p := by
  obtain ⟨e, out'', m, hrun', hm, hfiles⟩ := h.run n
  cases hrun.symm.trans hrun'
  rw [FaultyExport.held_iff hm]
  simp only [Tree.read, hfiles]

theorem Passed.nil_of_error {out : Tree} {turns : List Turn} {writes : List FileWrite}
    {e : Error} (h : Passed out turns writes)
    (he : (requireExport (runTurns 0 out turns)).1 = .error e) : turns = [] := by
  obtain ⟨m, -, hrun⟩ := h.run
  have hend := hrun 0 []
  rw [List.append_nil, runTurns] at hend
  rw [hend] at he
  by_contra hne
  have hcount : 0 + turns.length ≠ 0 := by
    have hpos := List.length_pos_iff.mpr hne
    omega
  have hok : ensure (0 + turns.length ≠ 0) "capability did not allow any files" = .ok () :=
    ensure_ok.mpr hcount
  cases hok.symm.trans he

/-- A run of the turns is an error that leaves the files as they were when there is no turn, or
when one fails after writes that change nothing. -/
theorem requireExport_stopped (out : Tree) (turns : List Turn) :
    (∃ e, (requireExport (runTurns 0 out turns)).1 = .error e) ∧
        (∀ p, (requireExport (runTurns 0 out turns)).2.read p = out.read p) ↔
      turns = [] ∨ ∃ writes, FailsAt out turns writes ∧ Held out writes := by
  constructor
  · rintro ⟨⟨e, he⟩, hsame⟩
    rcases passed_or_fails out turns with ⟨writes, hpassed⟩ | ⟨writes, hfails⟩
    · exact .inl (hpassed.nil_of_error he)
    · obtain ⟨e', out', m, hrun, -, -⟩ := hfails.run 0
      rw [hrun] at hsame
      exact .inr ⟨writes, hfails, (hfails.held_iff hrun).mpr hsame⟩
  · rintro (rfl | ⟨writes, hfails, hheld⟩)
    · exact ⟨⟨_, rfl⟩, fun _ => rfl⟩
    · obtain ⟨e, out', m, hrun, -, -⟩ := hfails.run 0
      rw [hrun]
      exact ⟨⟨e, rfl⟩, (hfails.held_iff hrun).mp hheld⟩

/-- The checks of `open_archive` pass but for the revocation of the token, nothing fails before
the export, and its loop takes these turns. -/
inductive Starts (faults : ExportFaults) (r : OpenRequest) (cap : CapabilityToken) :
    VerifyReport → List Turn → Prop
  | plain {report : VerifyReport} {identity : Identity} {access : Access} :
      faults.verifying = .none → faults.reopening = .none →
      Authorizes C J r cap report identity access → report.manifest.encrypted = false →
      r.createOut = .ok () →
      Starts faults r cap report (plainTurns faults.file access 0 r.file)
  | encrypted {report : VerifyReport} {identity : Identity} {access : Access}
      {passphrase : Option String} {packageId : String} {stanza : RecipientStanza} {key : Key} :
      faults.verifying = .none → faults.reopening = .none →
      Authorizes C J r cap report identity access → report.manifest.encrypted = true →
      identityPassphrase identity r.passphrase = .ok passphrase → r.createOut = .ok () →
      report.manifest.packageId = some packageId →
      report.manifest.recipients.find? (fun x => x.recipient = identity.encryptionPublicKey) =
        some stanza →
      unwrapContentKey C J stanza packageId identity passphrase = .ok key →
      Starts faults r cap report
        (sealedTurns C faults.file r.file key access 0 report.manifest.files)

/-- The supplied list, if there is one, is trusted and does not hold the token. -/
def Unrevoked (r : OpenRequest) (cap : CapabilityToken) (report : VerifyReport) : Prop :=
  ∃ revocations, loadRevocations C r.revocations r.revocationsUrl = .ok revocations ∧
    checkRevocations C revocations report.signature.publicKey cap = .ok ()

variable {C J} {faults : ExportFaults} {r : OpenRequest} {cap : CapabilityToken}
  {report : VerifyReport} {turns : List Turn}

theorem contentKeyFor_ok {manifest : QcapManifest} {identity : Identity}
    {passphrase : Option String} {key : Key} :
    contentKeyFor C J manifest identity passphrase = .ok key ↔ ∃ packageId stanza,
      manifest.packageId = some packageId ∧
        manifest.recipients.find? (fun x => x.recipient = identity.encryptionPublicKey) =
          some stanza ∧
        unwrapContentKey C J stanza packageId identity passphrase = .ok key := by
  simp only [contentKeyFor, bind_ok, okOr_ok]
  constructor
  · rintro ⟨packageId, hid, stanza, hs, hk⟩
    exact ⟨packageId, stanza, hid, hs, hk⟩
  · rintro ⟨packageId, stanza, hid, hs, hk⟩
    exact ⟨packageId, hid, stanza, hs, hk⟩

theorem Starts.signer (h : Starts C J faults r cap report turns) :
    cap.publicKey = report.signature.publicKey := by
  cases h with
  | plain _ _ ha => exact ha.signer
  | encrypted _ _ ha => exact ha.signer

theorem Starts.run (h : Starts C J faults r cap report turns) (hc : r.cap = .ok cap)
    (hu : Unrevoked C r cap report) (out : Tree) :
    openArchive C J faults r out = requireExport (runTurns 0 out turns) := by
  obtain ⟨revocations, hload, hcheck⟩ := hu
  cases h with
  | @plain identity access hverifying hreopening ha henc hout =>
    have hauthorize := (authorize_ok C J).mpr ⟨cap, revocations, hc, ha, hload, hcheck⟩
    rw [openArchive, hverifying, hauthorize]
    dsimp only
    rw [exportPayload, if_neg (by rw [henc]; decide), hout]
    dsimp only
    rw [openPlain, hreopening, writeEntries_turns]
  | @encrypted identity access passphrase packageId stanza key hverifying hreopening ha henc
      hp hout hid hs hk =>
    have hauthorize := (authorize_ok C J).mpr ⟨cap, revocations, hc, ha, hload, hcheck⟩
    have hkey := contentKeyFor_ok.mpr ⟨packageId, stanza, hid, hs, hk⟩
    rw [openArchive, hverifying, hauthorize]
    dsimp only
    rw [exportPayload, if_pos henc, hp, hout]
    dsimp only
    rw [openEncrypted, hkey, hreopening]
    dsimp only
    rw [decryptFiles_turns]

theorem openArchive_refused
    (h : ∀ cap report turns, r.cap = .ok cap → Starts C J faults r cap report turns →
      ¬ Unrevoked C r cap report) (out : Tree) :
    ∃ e, openArchive C J faults r out = (.error e, out) := by
  rw [openArchive]
  cases hverifying : faults.verifying with
  | some e => exact ⟨e, rfl⟩
  | none =>
    cases ha : authorize C J r with
    | error e => exact ⟨e, rfl⟩
    | ok granted =>
      obtain ⟨report, identity, access⟩ := granted
      obtain ⟨cap, revocations, hc, hauthorizes, hload, hcheck⟩ := (authorize_ok C J).mp ha
      have hstuck : ∀ turns, ¬ Starts C J faults r cap report turns :=
        fun turns hs => h cap report turns hc hs ⟨revocations, hload, hcheck⟩
      dsimp only
      rw [exportPayload]
      by_cases henc : report.manifest.encrypted = true
      · rw [if_pos henc]
        cases hp : identityPassphrase identity r.passphrase with
        | error e => exact ⟨e, rfl⟩
        | ok passphrase =>
        dsimp only
        cases hout : r.createOut with
        | error e => exact ⟨e, rfl⟩
        | ok u =>
        dsimp only
        rw [openEncrypted]
        cases hk : contentKeyFor C J report.manifest identity passphrase with
        | error e => exact ⟨e, rfl⟩
        | ok key =>
        dsimp only
        cases hreopening : faults.reopening with
        | some e => exact ⟨e, rfl⟩
        | none =>
          obtain ⟨packageId, stanza, hid, hs, hunwrap⟩ := contentKeyFor_ok.mp hk
          exact absurd (Starts.encrypted hverifying hreopening hauthorizes henc hp hout hid hs
            hunwrap) (hstuck _)
      · rw [if_neg henc]
        cases hout : r.createOut with
        | error e => exact ⟨e, rfl⟩
        | ok u =>
        dsimp only
        rw [openPlain]
        cases hreopening : faults.reopening with
        | some e => exact ⟨e, rfl⟩
        | none =>
          rw [Bool.not_eq_true] at henc
          exact absurd (Starts.plain hverifying hreopening hauthorizes henc hout) (hstuck _)

end QCap.FaultyExport

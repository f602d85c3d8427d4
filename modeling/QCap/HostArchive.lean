import QCap.InputTree

/-!
# Writing an archive call by call

`create_qcap_archive_with_signature` hands the ZIP writer one call after the other. Any of them
can fail, and so can whatever comes before one: a name that is no text, a file that does not
open or ends too soon. The calls made until then are what the file at the output path got.
-/
namespace QCap.HostArchive

open QCap.Text QCap.PathTree QCap.Crypto QCap.Formats QCap.Signatures QCap.PayloadMerkle
open QCap.Archive QCap.InputTree

variable (J : JsonCodec)

inductive ZipCall where
  /-- `source` is the file that the entry is made from. The archive does not hold it. -/
  | startFile (source : Option BytePath) (name : String)
  | addDirectory (name : String)
  | write (bytes : Bytes)
  | finish
  deriving DecidableEq

/-- The calls that returned, and the one that failed with the number of bytes it took before. -/
structure Calls where
  made : List ZipCall
  failed : Option (ZipCall × ℕ)
  deriving DecidableEq

/-- The calls in order, up to the first that fails or that an earlier error prevents. -/
def runCalls (failing : ℕ → Option ℕ) (made : List ZipCall) :
    List (Result ZipCall) → Result Unit × Calls
  | [] => (.ok (), ⟨made, none⟩)
  | .error e :: _ => (.error e, ⟨made, none⟩)
  | .ok call :: rest =>
    match failing made.length with
    | some taken => (.error .fileSystem, ⟨made, some (call, taken)⟩)
    | none => runCalls failing (made ++ [call]) rest

inductive Ended (failing : ℕ → Option ℕ) (made : List ZipCall) (plan : List (Result ZipCall)) :
    Result Unit × Calls → Prop
  | done (calls : List ZipCall) (h : plan = calls.map .ok) :
      Ended failing made plan (.ok (), ⟨made ++ calls, none⟩)
  | prevented (calls : List ZipCall) (e : Error) (rest : List (Result ZipCall))
      (h : plan = calls.map .ok ++ .error e :: rest) :
      Ended failing made plan (.error e, ⟨made ++ calls, none⟩)
  | failed (calls : List ZipCall) (call : ZipCall) (taken : ℕ) (rest : List (Result ZipCall))
      (h : plan = calls.map .ok ++ .ok call :: rest)
      (hf : failing (made ++ calls).length = some taken) :
      Ended failing made plan (.error .fileSystem, ⟨made ++ calls, some (call, taken)⟩)

theorem runCalls_ended (failing : ℕ → Option ℕ) (made : List ZipCall)
    (plan : List (Result ZipCall)) : Ended failing made plan (runCalls failing made plan) := by
  induction plan generalizing made with
  | nil =>
    have hend : Ended failing made [] (.ok (), ⟨made ++ [], none⟩) := .done [] rfl
    rwa [List.append_nil] at hend
  | cons step rest ih =>
    cases step with
    | error e =>
      have hend : Ended failing made (.error e :: rest) (.error e, ⟨made ++ [], none⟩) :=
        .prevented [] e rest rfl
      rwa [List.append_nil] at hend
    | ok call =>
      rw [runCalls]
      split
      · rename_i taken hf
        have hend : Ended failing made (.ok call :: rest)
            (.error .fileSystem, ⟨made ++ [], some (call, taken)⟩) :=
          .failed [] call taken rest rfl (by rwa [List.append_nil])
        rwa [List.append_nil] at hend
      · -- One call more was made; what follows ends as it does after that call.
        have hcons : ∀ calls : List ZipCall, made ++ [call] ++ calls = made ++ call :: calls := by
          simp
        generalize hout : runCalls failing (made ++ [call]) rest = out
        have hend := hout ▸ ih (made ++ [call])
        cases hend with
        | done calls h =>
          rw [hcons]
          exact .done _ (by rw [h]; rfl)
        | prevented calls e more h =>
          rw [hcons]
          exact .prevented _ e more (by rw [h]; rfl)
        | failed calls call' taken more h hf =>
          rw [hcons] at hf ⊢
          exact .failed _ call' taken more (by rw [h]; rfl) hf

theorem runCalls_ok {failing : ℕ → Option ℕ} {plan : List (Result ZipCall)} {calls : Calls}
    (h : runCalls failing [] plan = (.ok (), calls)) :
    plan = calls.made.map .ok ∧ calls.failed = none := by
  have hend := h ▸ runCalls_ended failing [] plan
  cases hend with
  | done made hp => exact ⟨hp, rfl⟩

theorem runCalls_quiet (made calls : List ZipCall) (rest : List (Result ZipCall)) :
    runCalls (fun _ => none) made (calls.map .ok ++ rest) =
      runCalls (fun _ => none) (made ++ calls) rest := by
  induction calls generalizing made with
  | nil => rw [List.map_nil, List.nil_append, List.append_nil]
  | cons call calls ih =>
    rw [List.map_cons, List.cons_append, runCalls, ih, List.append_assoc]
    rfl

def writeArchive (failing : ℕ → Option ℕ) :
    Result (List (Result ZipCall)) → Result Unit × Option Calls
  | .error e => (.error e, none)
  | .ok plan => ((runCalls failing [] plan).1, some (runCalls failing [] plan).2)

/-- What the output path holds in the end. `disk` is what the ZIP writer leaves of its calls in a
new file once it is dropped. -/
def outputAfter (disk : Calls → Bytes) (old : Option Bytes) : Option Calls → Option Bytes
  | none => old
  | some calls => some (disk calls)

theorem writeArchive_ok {failing : ℕ → Option ℕ} {begun : Result (List (Result ZipCall))}
    (h : (writeArchive failing begun).1 = .ok ()) :
    ∃ calls, begun = .ok (calls.map .ok) ∧
      writeArchive failing begun = (.ok (), some ⟨calls, none⟩) := by
  cases begun with
  | error e => cases h
  | ok plan =>
    obtain ⟨⟨made, failed⟩, hrun⟩ : ∃ calls, runCalls failing [] plan = (.ok (), calls) :=
      ⟨_, Prod.ext h rfl⟩
    obtain ⟨rfl, rfl⟩ := runCalls_ok hrun
    refine ⟨made, rfl, ?_⟩
    rw [writeArchive, hrun]

def archiveName (p : BytePath) : Result String :=
  okOr ((toStr (joinBytes p)).map fun s => replaceChar ("payload/" ++ s) '\\' '/')
    (.message "non-utf8 path")

def copyCalls (bytes : Bytes) : ReadFault → List (Result ZipCall)
  | .fine => [.ok (.write bytes)]
  | .unopened => [.error .fileSystem]
  | .broken after => [.ok (.write (bytes.take after)), .error .fileSystem]

def fileCalls (input : HostInput) (pass : Pass) (p : BytePath) : List (Result ZipCall) :=
  match archiveName p, input.file? p with
  | .error e, _ => [.error e]
  | .ok name, none => [.ok (.startFile (some p) name), .error .fileSystem]
  | .ok name, some f => .ok (.startFile (some p) name) :: copyCalls f.bytes (pass.read p)

def headerCalls (manifest : QcapManifest) (signature : QcapSignatureBundle) : List ZipCall :=
  [.startFile none "manifest.json", .write (J.manifestBytes manifest), .addDirectory "meta/",
    .addDirectory "signatures/", .startFile none "signatures/manifest.sig.json",
    .write (J.bundleBytes signature)]

/-- `create_qcap_archive_with_signature`, once the output file is there. -/
def archiveCalls (input : HostInput) (pass : Pass) (manifest : QcapManifest)
    (signature : QcapSignatureBundle) : List (Result ZipCall) :=
  (headerCalls J manifest signature).map .ok ++
    (input.walkFiles pass).flatMap (fileCalls input pass) ++ [.ok .finish]

structure Member where
  source : Option BytePath
  entry : ZipEntry
  deriving DecidableEq

def contents : List ZipCall → Bytes
  | .write bytes :: rest => bytes ++ contents rest
  | _ => []

def members : List ZipCall → List Member
  | [] => []
  | .startFile source name :: rest => ⟨source, ⟨name, contents rest⟩⟩ :: members rest
  | .addDirectory name :: rest => ⟨none, ⟨name, []⟩⟩ :: members rest
  | .write _ :: rest => members rest
  | .finish :: rest => members rest

def zip (calls : List ZipCall) : Zip := (members calls).map Member.entry

structure Packs (input : HostInput) (p : BytePath) (m : Member) : Prop where
  source : m.source = some p
  name : archiveName p = .ok m.entry.name
  bytes : (input.file? p).map HostFile.bytes = some m.entry.bytes

def Member.calls (m : Member) : List ZipCall :=
  [.startFile m.source m.entry.name, .write m.entry.bytes]

theorem fileCalls_ok {input : HostInput} {pass : Pass} {p : BytePath} {calls : List ZipCall}
    {tail : List (Result ZipCall)} (h : fileCalls input pass p ++ tail = calls.map .ok) :
    ∃ m rest, Packs input p m ∧ calls = m.calls ++ rest ∧ tail = rest.map .ok := by
  have herr : ∀ (before : List (Result ZipCall)) (e : Error),
      ¬ (before ++ .error e :: tail = calls.map .ok) := by
    intro before e he
    have hm : (Except.error e : Result ZipCall) ∈ calls.map Except.ok := by
      rw [← he]
      exact List.mem_append_right _ List.mem_cons_self
    obtain ⟨c, -, hc⟩ := List.mem_map.mp hm
    cases hc
  rw [fileCalls] at h
  split at h
  · exact absurd h (herr [] _)
  · exact absurd h (herr [_] _)
  · rename_i name f hname hf
    cases hr : pass.read p with
    | unopened =>
      rw [hr] at h
      exact absurd h (herr [_] _)
    | broken after =>
      rw [hr] at h
      exact absurd h (herr [_, _] _)
    | fine =>
      rw [hr, copyCalls] at h
      obtain ⟨first, calls, rfl⟩ :=
        List.exists_cons_of_ne_nil (l := calls) (by rintro rfl; cases h)
      obtain ⟨second, calls, rfl⟩ :=
        List.exists_cons_of_ne_nil (l := calls) (by rintro rfl; cases h)
      simp only [List.cons_append, List.nil_append, List.map_cons, List.cons.injEq,
        Except.ok.injEq] at h
      obtain ⟨rfl, rfl, rfl⟩ := h
      exact ⟨⟨some p, ⟨name, f.bytes⟩⟩, calls, ⟨rfl, hname, by rw [hf]; rfl⟩, rfl, rfl⟩

theorem payloadCalls_ok {input : HostInput} {pass : Pass} {ps : List BytePath}
    {calls : List ZipCall}
    (h : ps.flatMap (fileCalls input pass) ++ [.ok .finish] = calls.map .ok) :
    ∃ files, List.Forall₂ (Packs input) ps files ∧
      calls = files.flatMap Member.calls ++ [.finish] := by
  induction ps generalizing calls with
  | nil =>
    refine ⟨[], .nil, ?_⟩
    rw [List.flatMap_nil, List.nil_append] at h ⊢
    have hmap : ([ZipCall.finish].map Except.ok : List (Result ZipCall)) = calls.map .ok := h
    exact (List.map_inj_right (fun _ _ he => Except.ok.inj he)).mp hmap.symm
  | cons p ps ih =>
    rw [List.flatMap_cons, List.append_assoc] at h
    obtain ⟨m, rest, hm, rfl, hrest⟩ := fileCalls_ok h
    obtain ⟨files, hfiles, rfl⟩ := ih hrest
    refine ⟨m :: files, .cons hm hfiles, ?_⟩
    rw [List.flatMap_cons, List.append_assoc]

theorem contents_files (files : List Member) :
    contents (files.flatMap Member.calls ++ [.finish]) = [] := by
  cases files <;> rfl

theorem members_files (files : List Member) :
    members (files.flatMap Member.calls ++ [.finish]) = files := by
  induction files with
  | nil => rfl
  | cons m files ih =>
    rw [List.flatMap_cons, List.append_assoc]
    simp only [Member.calls, List.cons_append, List.nil_append, members, contents,
      contents_files, ih, List.append_nil]

def headerMembers (manifest : QcapManifest) (signature : QcapSignatureBundle) : List Member :=
  [⟨none, ⟨"manifest.json", J.manifestBytes manifest⟩⟩, ⟨none, ⟨"meta/", []⟩⟩,
    ⟨none, ⟨"signatures/", []⟩⟩,
    ⟨none, ⟨"signatures/manifest.sig.json", J.bundleBytes signature⟩⟩]

variable {J} {input : HostInput} {pass : Pass} {manifest : QcapManifest}
  {signature : QcapSignatureBundle}

theorem members_header (manifest : QcapManifest) (signature : QcapSignatureBundle)
    (files : List Member) :
    members (headerCalls J manifest signature ++
        (files.flatMap Member.calls ++ [.finish])) =
      headerMembers J manifest signature ++ files := by
  simp only [headerCalls, List.cons_append, List.nil_append, members, contents, contents_files,
    members_files, List.append_nil]
  rfl

theorem archiveCalls_ok {calls : List ZipCall}
    (h : archiveCalls J input pass manifest signature = calls.map .ok) :
    ∃ files, List.Forall₂ (Packs input) (input.walkFiles pass) files ∧
      members calls = headerMembers J manifest signature ++ files := by
  rw [archiveCalls, List.append_assoc] at h
  obtain ⟨header, rest, rfl, hheader, hrest⟩ := List.append_eq_map_iff.mp h
  have he : header = headerCalls J manifest signature :=
    (List.map_inj_right (fun _ _ he => Except.ok.inj he)).mp hheader
  obtain ⟨files, hfiles, rfl⟩ := payloadCalls_ok hrest.symm
  refine ⟨files, hfiles, ?_⟩
  rw [he, members_header]

/-- Exactly one entry is made from the file, and no other entry of the archive has its name.
`origin` leads from the file that was packed to the one that it stands for. -/
def PackedOnce (origin : BytePath → Option BytePath) (calls : List ZipCall) (p : BytePath) :
    Prop :=
  ∃ m, (members calls).filter (fun x => x.source.bind origin = some p) = [m] ∧
    (members calls).filter (fun x => x.entry.name = m.entry.name) = [m]

theorem replaceChar_append (s t : String) (c d : Char) :
    replaceChar (s ++ t) c d = replaceChar s c d ++ replaceChar t c d := by
  simp [replaceChar, String.toList_append]

theorem archiveName_prefix {p : BytePath} {name : String} (h : archiveName p = .ok name) :
    startsWith name "payload/" = true := by
  rw [archiveName, okOr_ok, Option.map_eq_some_iff] at h
  obtain ⟨s, -, rfl⟩ := h
  rw [replaceChar_append, replaceChar_free (by decide)]
  exact startsWith_append _ _

theorem packs_mem {ps : List BytePath} {files : List Member}
    (h : List.Forall₂ (Packs input) ps files) :
    (∀ p ∈ ps, ∃ m ∈ files, Packs input p m) ∧ ∀ m ∈ files, ∃ p ∈ ps, Packs input p m := by
  induction h with
  | nil => simp
  | cons hm _ ih =>
    obtain ⟨hleft, hright⟩ := ih
    constructor
    · intro p hp
      rcases List.mem_cons.mp hp with rfl | hp
      · exact ⟨_, List.mem_cons_self, hm⟩
      · obtain ⟨m, hmem, hpacks⟩ := hleft p hp
        exact ⟨m, List.mem_cons_of_mem _ hmem, hpacks⟩
    · intro m hmem
      rcases List.mem_cons.mp hmem with rfl | hmem
      · exact ⟨_, List.mem_cons_self, hm⟩
      · obtain ⟨p, hp, hpacks⟩ := hright m hmem
        exact ⟨p, List.mem_cons_of_mem _ hp, hpacks⟩

theorem packs_sources {ps : List BytePath} {files : List Member}
    (h : List.Forall₂ (Packs input) ps files) : files.map Member.source = ps.map some := by
  induction h with
  | nil => rfl
  | cons hm _ ih => rw [List.map_cons, List.map_cons, hm.source, ih]

theorem headerMembers_source {m : Member} (h : m ∈ headerMembers J manifest signature) :
    m.source = none ∧ startsWith m.entry.name "payload/" = false := by
  simp only [headerMembers, List.mem_cons, List.not_mem_nil, or_false] at h
  rcases h with rfl | rfl | rfl | rfl <;> refine ⟨rfl, ?_⟩ <;> simp only <;> decide

theorem members_nodup {files : List Member}
    (h : List.Forall₂ (Packs input) (input.walkFiles pass) files) :
    (headerMembers J manifest signature ++ files).Nodup := by
  have hfiles : files.Nodup := by
    apply List.Nodup.of_map Member.source
    rw [packs_sources h]
    exact HostInput.walkFiles_nodup.map (Option.some_injective _)
  have hheader : (headerMembers J manifest signature).Nodup := by
    apply List.Nodup.of_map fun m => m.entry.name
    simp only [headerMembers, List.map_cons, List.map_nil]
    decide
  apply hheader.append hfiles
  intro m hm hf
  obtain ⟨p, -, hp⟩ := (packs_mem h).2 m hf
  have hsource := (headerMembers_source hm).1
  rw [hp.source] at hsource
  cases hsource

theorem Packs.path_unique {t u : BytePath} {m : Member} (ht : Packs input t m)
    (hu : Packs input u m) : u = t :=
  Option.some.inj (hu.source.symm.trans ht.source)

theorem packs_unique {ps : List BytePath} {files : List Member}
    (h : List.Forall₂ (Packs input) ps files) (hps : ps.Nodup) {t : BytePath} {m x : Member}
    (hm : m ∈ files) (hx : x ∈ files) (hmt : Packs input t m) (hxt : Packs input t x) : x = m := by
  have hsources : (files.map Member.source).Nodup := by
    rw [packs_sources h]
    exact hps.map (Option.some_injective _)
  exact List.inj_on_of_nodup_map hsources hx hm (hxt.source.trans hmt.source.symm)

theorem mem_files_of_origin {files : List Member} {origin : BytePath → Option BytePath}
    {p : BytePath} {x : Member} (hx : x ∈ headerMembers J manifest signature ++ files)
    (h : x.source.bind origin = some p) : x ∈ files := by
  rcases List.mem_append.mp hx with hx | hx
  · rw [(headerMembers_source hx).1] at h
    cases h
  · exact hx

theorem mem_files_of_name {files : List Member} {t : BytePath} {x : Member}
    (hx : x ∈ headerMembers J manifest signature ++ files)
    (h : archiveName t = .ok x.entry.name) : x ∈ files := by
  rcases List.mem_append.mp hx with hx | hx
  · have hpre := archiveName_prefix h
    rw [(headerMembers_source hx).2] at hpre
    cases hpre
  · exact hx

/-- A file is packed once when the walk comes to one path that stands for it, and to no other
path with the name of that one. -/
theorem packedOnce_iff {calls : List ZipCall} {origin : BytePath → Option BytePath}
    {p : BytePath} (h : archiveCalls J input pass manifest signature = calls.map .ok) :
    PackedOnce origin calls p ↔ ∃ t ∈ input.walkFiles pass, origin t = some p ∧
      (∀ u ∈ input.walkFiles pass, origin u = some p → u = t) ∧
      ∀ u ∈ input.walkFiles pass, archiveName u = archiveName t → u = t := by
  obtain ⟨files, hfiles, hmembers⟩ := archiveCalls_ok h
  obtain ⟨hleft, hright⟩ := packs_mem hfiles
  have hnodup : (headerMembers J manifest signature ++ files).Nodup := members_nodup hfiles
  have hfilter := @DirWalk.filter_eq_singleton _ _ hnodup
  rw [PackedOnce, hmembers]
  simp only [hfilter, decide_eq_true_eq]
  constructor
  · rintro ⟨m, ⟨hm, horigin, hone⟩, -, -, hname⟩
    obtain ⟨t, ht, hpacks⟩ := hright m (mem_files_of_origin hm horigin)
    rw [hpacks.source, Option.bind_some] at horigin
    refine ⟨t, ht, horigin, ?_, ?_⟩
    · intro u hu hou
      obtain ⟨x, hx, hxp⟩ := hleft u hu
      have hxm : x = m := by
        apply hone x (List.mem_append_right _ hx)
        rw [hxp.source, Option.bind_some, hou]
      exact hpacks.path_unique (hxm ▸ hxp)
    · intro u hu hun
      obtain ⟨x, hx, hxp⟩ := hleft u hu
      have hxm : x = m := by
        apply hname x (List.mem_append_right _ hx)
        rw [hxp.name, hpacks.name] at hun
        exact Except.ok.inj hun
      exact hpacks.path_unique (hxm ▸ hxp)
  · rintro ⟨t, ht, horigin, hone, hname⟩
    obtain ⟨m, hm, hpacks⟩ := hleft t ht
    have hmem := List.mem_append_right (headerMembers J manifest signature) hm
    have hsame : ∀ x ∈ files, Packs input t x → x = m := by
      intro x hx hxp
      exact packs_unique hfiles HostInput.walkFiles_nodup hm hx hpacks hxp
    refine ⟨m, ⟨hmem, by rw [hpacks.source, Option.bind_some, horigin], ?_⟩, hmem, trivial, ?_⟩
    · intro x hx hxo
      have hxf := mem_files_of_origin hx hxo
      obtain ⟨u, hu, hxp⟩ := hright x hxf
      rw [hxp.source, Option.bind_some] at hxo
      have hut := hone u hu hxo
      subst hut
      exact hsame x hxf hxp
    · intro x hx hxn
      have hnamed : archiveName t = .ok x.entry.name := by rw [hpacks.name, hxn]
      have hxf := mem_files_of_name hx hnamed
      obtain ⟨u, hu, hxp⟩ := hright x hxf
      have hut := hname u hu (hxp.name.trans hnamed.symm)
      subst hut
      exact hsame x hxf hxp

end QCap.HostArchive

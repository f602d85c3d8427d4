import QCap.Refinement
import QCap.RegistryService

/-!
# The registry as a store

What the registry is for: a map of artifacts and a map of revocation lists. An upload takes
effect at once, and an answer says what the maps hold. A kill may let one accepted upload
take effect that nobody was told of.
-/
namespace QCap.RegistryStore

open QCap.Text QCap.Crypto QCap.Refinement QCap.RegistryArchive QCap.RegistryFiles
open QCap.RegistryIndex QCap.RegistryPublish QCap.IndexReload QCap.RegistryNames
open QCap.RegistryService

variable (C : Primitives) (G : GoLib)

structure Stored where
  bytes : Bytes
  createdAt : String

structure Store where
  artifacts : String → Option Stored
  lists : String → Option Bytes

def Store.empty : Store := ⟨fun _ => none, fun _ => none⟩

def Store.put (t : Store) (name : String) (bytes : Bytes) (now : String) : Store :=
  { t with
    artifacts := Function.update t.artifacts name
      (some ⟨bytes, ((t.artifacts name).map Stored.createdAt).getD now⟩) }

def Store.putList (t : Store) (issuer : String) (bytes : Bytes) : Store :=
  { t with lists := Function.update t.lists issuer (some bytes) }

def revocationDocument (issuer : String) (size : ℕ) (digest createdAt : String) :
    RevocationDocument where
  issuer := issuer
  path := "/revocations/" ++ issuer ++ "/revocations.json"
  size := size
  contentType := "application/qcap-revocations+json"
  digest := digest
  createdAt := createdAt

@[simp] theorem revocationDocument_path (issuer : String) (size : ℕ) (digest createdAt : String) :
    (revocationDocument issuer size digest createdAt).path = listUrl issuer := by
  unfold revocationDocument listUrl
  rfl

def Stored.row (name : String) (a : Stored) : Capsule :=
  artifactCapsule name a.bytes.length (fileDigest C a.bytes) a.createdAt

structure Store.Index (t : Store) (index : List Capsule) : Prop where
  sorted : index.Pairwise fun a b => a.name < b.name
  rows : ∀ c, c ∈ index ↔ ∃ a, t.artifacts c.name = some a ∧ c = a.row C c.name

def IndexAnswer (index : List Capsule) (answer : Answer) : Prop :=
  answer = .index index ∨ answer = .indexPage index

def whole (content : Option Bytes) : Answer :=
  .file (content.elim (.error 404 "404 page not found") .file)

/-- What a GET may say of a store. The paths that `publish` and `publishRevocations` give out have
one answer each; under no path is there a file but a stored one that the path names, and no index
but that of the store. -/
structure Store.Answers (t : Store) (urlPath : String) (answer : Answer) : Prop where
  download : ∀ name, (∃ rawName, artifactName rawName = some name) →
    urlPath = "/artifacts/" ++ name → answer = whole ((t.artifacts name).map Stored.bytes)
  list : ∀ issuer, HexKey issuer → urlPath = listUrl issuer → answer = whole (t.lists issuer)
  indexJSON : urlPath = "/index.json" → ∃ index, answer = .index index
  indexHTML : urlPath = "/index" → ∃ index, answer = .indexPage index
  rows : ∀ index, IndexAnswer index answer → t.Index C index
  file : ∀ bytes, answer = .file (.file bytes) →
    (∃ raw a, urlPath = "/artifacts/" ++ raw ∧ t.artifacts (trim raw) = some a ∧
      a.bytes = bytes) ∨
    ∃ rest issuer, urlPath = "/revocations/" ++ rest ∧ issuer.toList <:+: rest.toList ∧
      t.lists issuer = some bytes

inductive Slot where
  | artifact (name : String)
  | list (issuer : String)

/-- What the clients see, and the kills with the upload that was just being put in place. -/
inductive Seen where
  | created (capsule : Capsule)
  | listed (document : RevocationDocument)
  | read (urlPath : String) (answer : Answer)
  | killed (during : Option Slot)

/-- An upload that `publish` accepts under a name. -/
structure ValidArtifact (name : String) (bytes : Bytes) : Prop where
  named : ∃ rawName, artifactName rawName = some name
  size : bytes.length ≤ maxArtifactBytes
  valid : validateQcapArchive C G (G.openReader bytes) = .ok ()

inductive Step : Store → Option Seen → Store → Prop where
  | created {t : Store} {name : String} {bytes : Bytes} (now : String) :
      ValidArtifact C G name bytes →
      Step t (some (.created (artifactCapsule name bytes.length (fileDigest C bytes) now)))
        (t.put name bytes now)
  | listed {t : Store} {issuer : String} {bytes : Bytes} (now : String) :
      validateRevocationList C G bytes issuer = .ok () →
      Step t (some (.listed (revocationDocument issuer bytes.length (fileDigest C bytes) now)))
        (t.putList issuer bytes)
  | read {t : Store} {urlPath : String} {answer : Answer} :
      t.Answers C urlPath answer → Step t (some (.read urlPath answer)) t
  | killed {t : Store} (during : Option Slot) : Step t (some (.killed during)) t
  | killedCreating {t : Store} {name : String} {bytes : Bytes} (now : String) :
      ValidArtifact C G name bytes →
      Step t (some (.killed (some (.artifact name)))) (t.put name bytes now)
  | killedListing {t : Store} {issuer : String} {bytes : Bytes} :
      validateRevocationList C G bytes issuer = .ok () →
      Step t (some (.killed (some (.list issuer)))) (t.putList issuer bytes)

variable {C G} {t t' : Store} {a : Stored} {name issuer : String} {seen : Option Seen}

@[simp] theorem put_artifacts_self (bytes : Bytes) (now : String) :
    (t.put name bytes now).artifacts name =
      some ⟨bytes, ((t.artifacts name).map Stored.createdAt).getD now⟩ := by
  simp [Store.put]

theorem put_artifacts_ne {other : String} (bytes : Bytes) (now : String) (h : other ≠ name) :
    (t.put name bytes now).artifacts other = t.artifacts other := by
  simp [Store.put, h]

@[simp] theorem putList_lists_self (bytes : Bytes) :
    (t.putList issuer bytes).lists issuer = some bytes := by
  simp [Store.putList]

/-- What is stored under the name is valid, and from the time `createdAt` on. -/
def Holds (C : Primitives) (G : GoLib) (name createdAt : String) (t : Store) : Prop :=
  ∃ bytes, t.artifacts name = some ⟨bytes, createdAt⟩ ∧ ValidArtifact C G name bytes

def HoldsList (C : Primitives) (G : GoLib) (issuer : String) (t : Store) : Prop :=
  ∃ bytes, t.lists issuer = some bytes ∧ validateRevocationList C G bytes issuer = .ok ()

def AllValid (C : Primitives) (G : GoLib) (t : Store) : Prop :=
  ∀ name a, t.artifacts name = some a → ValidArtifact C G name a.bytes

theorem allValid_empty : AllValid C G Store.empty := by
  intro name a h
  cases h

theorem holds_put {createdAt other : String} {bytes : Bytes} (now : String)
    (hv : ValidArtifact C G other bytes) (h : Holds C G name createdAt t) :
    Holds C G name createdAt (t.put other bytes now) := by
  obtain ⟨old, hold, hvalid⟩ := h
  by_cases hn : name = other
  · subst hn
    refine ⟨bytes, ?_, hv⟩
    rw [put_artifacts_self, hold]
    rfl
  · refine ⟨old, ?_, hvalid⟩
    rw [put_artifacts_ne bytes now hn]
    exact hold

theorem holdsList_putList {other : String} {bytes : Bytes}
    (hv : validateRevocationList C G bytes other = .ok ()) (h : HoldsList C G issuer t) :
    HoldsList C G issuer (t.putList other bytes) := by
  obtain ⟨old, hold, hvalid⟩ := h
  by_cases hn : issuer = other
  · subst hn
    exact ⟨bytes, putList_lists_self bytes, hv⟩
  · exact ⟨old, (Function.update_of_ne hn _ _).trans hold, hvalid⟩

theorem allValid_put {bytes : Bytes} (now : String) (hv : ValidArtifact C G name bytes)
    (h : AllValid C G t) : AllValid C G (t.put name bytes now) := by
  intro other a ha
  by_cases hn : other = name
  · subst hn
    rw [put_artifacts_self] at ha
    cases ha
    exact hv
  · rw [put_artifacts_ne _ _ hn] at ha
    exact h other a ha

/-- A name, once taken, is never free again, and its time never changes. -/
theorem Step.holds {createdAt : String} (h : Step C G t seen t') (ht : Holds C G name createdAt t) :
    Holds C G name createdAt t' := by
  cases h with
  | created now hv => exact holds_put now hv ht
  | killedCreating now hv => exact holds_put now hv ht
  | listed now hv => exact ht
  | killedListing hv => exact ht
  | read ha => exact ht
  | killed _ => exact ht

theorem Step.holdsList (h : Step C G t seen t') (ht : HoldsList C G issuer t) :
    HoldsList C G issuer t' := by
  cases h with
  | created now hv => exact ht
  | killedCreating now hv => exact ht
  | listed now hv => exact holdsList_putList hv ht
  | killedListing hv => exact holdsList_putList hv ht
  | read ha => exact ht
  | killed _ => exact ht

theorem Step.allValid (h : Step C G t seen t') (ht : AllValid C G t) : AllValid C G t' := by
  cases h with
  | created now hv => exact allValid_put now hv ht
  | killedCreating now hv => exact allValid_put now hv ht
  | listed now hv => exact ht
  | killedListing hv => exact ht
  | read ha => exact ht
  | killed _ => exact ht

/-- Neither an upload under the name nor a kill inside one. -/
def Seen.NotCreated (name : String) : Seen → Prop
  | .created capsule => capsule.name ≠ name
  | .killed during => during ≠ some (.artifact name)
  | _ => True

def Seen.NotListed (issuer : String) : Seen → Prop
  | .listed document => document.issuer ≠ issuer
  | .killed during => during ≠ some (.list issuer)
  | _ => True

theorem Step.keeps {s : Seen} (hs : s.NotCreated name) (h : Step C G t (some s) t') :
    t'.artifacts name = t.artifacts name := by
  cases h with
  | created now hv => exact put_artifacts_ne _ _ (Ne.symm hs)
  | listed now hv => rfl
  | read ha => rfl
  | killed _ => rfl
  | killedCreating now hv =>
    apply put_artifacts_ne
    rintro rfl
    exact hs rfl
  | killedListing hv => rfl

theorem Step.keepsList {s : Seen} (hs : s.NotListed issuer) (h : Step C G t (some s) t') :
    t'.lists issuer = t.lists issuer := by
  cases h with
  | listed now hv => exact Function.update_of_ne (Ne.symm hs) _ _
  | created now hv => rfl
  | read ha => rfl
  | killed _ => rfl
  | killedCreating now hv => rfl
  | killedListing hv =>
    apply Function.update_of_ne
    rintro rfl
    exact hs rfl

section

variable {trace before middle after : List Seen}

theorem runs_holds {createdAt : String} (h : Runs (Step C G) t trace t')
    (ht : Holds C G name createdAt t) : Holds C G name createdAt t' :=
  h.invariant (fun _ _ _ ht hstep => hstep.holds ht) ht

theorem runs_holdsList (h : Runs (Step C G) t trace t') (ht : HoldsList C G issuer t) :
    HoldsList C G issuer t' :=
  h.invariant (fun _ _ _ ht hstep => hstep.holdsList ht) ht

theorem runs_keeps (h : Runs (Step C G) t trace t') (hs : ∀ s ∈ trace, s.NotCreated name) :
    t'.artifacts name = t.artifacts name := by
  let kept (m : Store) : Prop := m.artifacts name = t.artifacts name
  have hstart : kept t := rfl
  refine h.invariant_of ?_ ?_ hs hstart
  · intro m m' _ hstep
    cases hstep
  · intro m s m' hs hm hstep
    exact (hstep.keeps hs).trans hm

theorem runs_keepsList (h : Runs (Step C G) t trace t') (hs : ∀ s ∈ trace, s.NotListed issuer) :
    t'.lists issuer = t.lists issuer := by
  let kept (m : Store) : Prop := m.lists issuer = t.lists issuer
  have hstart : kept t := rfl
  refine h.invariant_of ?_ ?_ hs hstart
  · intro m m' _ hstep
    cases hstep
  · intro m s m' hs hm hstep
    exact (hstep.keepsList hs).trans hm

theorem Step.read_inv {urlPath : String} {answer : Answer}
    (h : Step C G t (some (.read urlPath answer)) t') : t' = t ∧ t.Answers C urlPath answer := by
  cases h with
  | read ha => exact ⟨rfl, ha⟩

theorem download_answer {answer : Answer} {bytes : Bytes} {createdAt : String}
    (hv : ValidArtifact C G name bytes) (hs : t.artifacts name = some ⟨bytes, createdAt⟩)
    (h : t.Answers C ("/artifacts/" ++ name) answer) : answer = .file (.file bytes) := by
  rw [h.download name hv.named rfl, hs]
  rfl

theorem list_answer {answer : Answer} {bytes : Bytes}
    (hv : validateRevocationList C G bytes issuer = .ok ()) (hs : t.lists issuer = some bytes)
    (h : t.Answers C (listUrl issuer) answer) : answer = .file (.file bytes) := by
  rw [h.list issuer (validateRevocationList_own hv).1 rfl, hs]
  rfl

/-- What was answered as created can be downloaded, as long as no other upload takes its
place, and something valid always can. -/
theorem created_download {capsule : Capsule} {answer : Answer}
    (h : Runs (Step C G) t
      (before ++ .created capsule :: (middle ++ .read capsule.path answer :: after)) t') :
    ∃ bytes, answer = .file (.file bytes) ∧
      validateQcapArchive C G (G.openReader bytes) = .ok () ∧
      ((∀ s ∈ middle, s.NotCreated capsule.name) →
        bytes.length = capsule.size ∧ fileDigest C bytes = capsule.digest) := by
  obtain ⟨m, m₁, -, hcreated, hrest⟩ := h.cut
  obtain ⟨m₂, m₃, hmiddle, hread, -⟩ := hrest.cut
  obtain ⟨-, hanswer⟩ := hread.read_inv
  cases hcreated with
  | @created name body now hv =>
    have hself := @put_artifacts_self m name body now
    obtain ⟨bytes, hbytes, hvalid⟩ := runs_holds hmiddle ⟨body, hself, hv⟩
    refine ⟨bytes, download_answer hvalid hbytes hanswer, hvalid.valid, ?_⟩
    intro hs
    have hkept : m₂.artifacts name = _ := (runs_keeps hmiddle hs).trans hself
    rw [hkept] at hbytes
    cases hbytes
    exact ⟨rfl, rfl⟩

theorem listed_download {document : RevocationDocument} {answer : Answer}
    (h : Runs (Step C G) t
      (before ++ .listed document :: (middle ++ .read document.path answer :: after)) t') :
    ∃ bytes, answer = .file (.file bytes) ∧
      validateRevocationList C G bytes document.issuer = .ok () ∧
      ((∀ s ∈ middle, s.NotListed document.issuer) →
        bytes.length = document.size ∧ fileDigest C bytes = document.digest) := by
  obtain ⟨m, m₁, -, hlisted, hrest⟩ := h.cut
  obtain ⟨m₂, m₃, hmiddle, hread, -⟩ := hrest.cut
  obtain ⟨-, hanswer⟩ := hread.read_inv
  cases hlisted with
  | @listed issuer body now hv =>
    have hself := @putList_lists_self m issuer body
    obtain ⟨bytes, hbytes, hvalid⟩ := runs_holdsList hmiddle ⟨body, hself, hv⟩
    rw [revocationDocument_path] at hanswer
    refine ⟨bytes, list_answer hvalid hbytes hanswer, hvalid, ?_⟩
    intro hs
    have hkept : m₂.lists issuer = _ := (runs_keepsList hmiddle hs).trans hself
    rw [hkept] at hbytes
    cases hbytes
    exact ⟨rfl, rfl⟩

/-- The path of a row is that of its name, and its name is one that `publish` gives. -/
theorem Store.Index.named {index : List Capsule} (h : t.Index C index) (ht : AllValid C G t)
    {row : Capsule} (hrow : row ∈ index) :
    row.path = "/artifacts/" ++ row.name ∧ ∃ rawName, artifactName rawName = some row.name := by
  obtain ⟨a, ha, hr⟩ := (h.rows row).mp hrow
  refine ⟨?_, (ht _ _ ha).named⟩
  rw [hr]
  rfl

/-- A name that an index lists is in every later one, from the same time on; and until the next
upload under it, its row says what a download gives. -/
theorem index_later {index : List Capsule} {urlPath urlPath' : String} {answer answer' : Answer}
    (ht : AllValid C G t) (ha : IndexAnswer index answer)
    (h : Runs (Step C G) t
      (before ++ .read urlPath answer :: (middle ++ .read urlPath' answer' :: after)) t')
    {row : Capsule} (hrow : row ∈ index) :
    (∀ index', IndexAnswer index' answer' →
      ∃ row' ∈ index', row'.name = row.name ∧ row'.createdAt = row.createdAt ∧
        ((∀ s ∈ middle, s.NotCreated row.name) → row' = row)) ∧
    (urlPath' = row.path → ∃ bytes, answer' = .file (.file bytes) ∧
      ValidArtifact C G row.name bytes ∧
      ((∀ s ∈ middle, s.NotCreated row.name) →
        bytes.length = row.size ∧ fileDigest C bytes = row.digest)) := by
  obtain ⟨m, m₁, hbefore, hread, hrest⟩ := h.cut
  obtain ⟨m₂, m₃, hmiddle, hread', -⟩ := hrest.cut
  obtain ⟨rfl, hanswer⟩ := hread.read_inv
  obtain ⟨-, hanswer'⟩ := hread'.read_inv
  have hvalid : AllValid C G m₁ := hbefore.invariant (fun _ _ _ ht hstep => hstep.allValid ht) ht
  obtain ⟨a, hstored, hr⟩ := ((hanswer.rows index ha).rows row).mp hrow
  have hholds : Holds C G row.name a.createdAt m₁ := ⟨a.bytes, hstored, hvalid _ _ hstored⟩
  obtain ⟨bytes, hbytes, hv⟩ := runs_holds hmiddle hholds
  have hkeeps : (∀ s ∈ middle, s.NotCreated row.name) → bytes = a.bytes := by
    intro hs
    rw [runs_keeps hmiddle hs, hstored] at hbytes
    have ha : a = _ := Option.some.inj hbytes
    rw [ha]
  constructor
  · intro index' ha'
    have hi := hanswer'.rows index' ha'
    refine ⟨Stored.row C row.name ⟨bytes, a.createdAt⟩, (hi.rows _).mpr ⟨_, hbytes, rfl⟩, rfl,
      ?_, ?_⟩
    · rw [hr]
      rfl
    · intro hs
      rw [hkeeps hs]
      exact hr.symm
  · rintro rfl
    have hpath : row.path = "/artifacts/" ++ row.name := by
      rw [hr]
      rfl
    rw [hpath] at hanswer'
    refine ⟨bytes, download_answer hv hbytes hanswer', hv, ?_⟩
    intro hs
    rw [hkeeps hs, hr]
    exact ⟨rfl, rfl⟩

end

end QCap.RegistryStore

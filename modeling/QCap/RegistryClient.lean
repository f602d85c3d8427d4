import QCap.GoEncoder
import QCap.RegistryNames
import QCap.SealedDocuments

/-!
# The commands that talk to a registry

`publish`, `fetch`, `publish-revocations` and `fetch-revocations`: the URLs they make, and what
they make of the answers. The HTTP client is a pair of functions.
-/
namespace QCap.RegistryClient

open QCap.Text QCap.CleanNames QCap.Crypto QCap.Formats QCap.Signatures QCap.Revocation
open QCap.RegistryPublish QCap.RegistryNames QCap.RegistryFiles QCap.RegistryIndex
open QCap.GoEncoder QCap.SealedDocuments
open QCap.SerdeDocuments (readList listBytes)

variable (C : Primitives)

/-- `trim_end_matches('/')`. -/
def trimEndSlashes (s : String) : String := String.ofList (s.toList.rdropWhile (· = '/'))

/-- `trim_start_matches('/')`. -/
def trimStartSlashes (s : String) : String := String.ofList (s.toList.dropWhile (· = '/'))

def dropPrefixes (p : List Char) : ℕ → List Char → List Char
  | 0, cs => cs
  | n + 1, cs => if p.isPrefixOf cs then dropPrefixes p n (cs.drop p.length) else cs

/-- `trim_start_matches` of a text that is not empty: as often as it stands there. -/
def trimStartMatches (s p : String) : String :=
  String.ofList (dropPrefixes p.toList s.toList.length s.toList)

structure Post where
  url : String
  contentType : String
  name : Option String
  authorization : Option String
  body : Bytes

structure Published where
  subject : String
  url : String

def bearer (token : Option String) : Option String :=
  (token.filter (· ≠ "")).map ("Bearer " ++ ·)

/-- `publish`, up to the request. `fileName` is the file name of the path, if it has one that
is UTF-8. -/
def publishPost (file : Result Bytes) (fileName : Option String) (registry : String)
    (token : Option String) : Result Post := do
  let bytes ← file
  let name ← okOr fileName (.message "artifact path has no UTF-8 file name")
  return {
    url := trimEndSlashes registry ++ "/artifacts"
    contentType := "application/qcap+zip"
    name := some name
    authorization := bearer token
    body := bytes }

def publish (file : Result Bytes) (fileName : Option String) (registry : String)
    (token : Option String) (send : Post → Result Bytes) : Result Published := do
  let request ← publishPost file fileName registry token
  let response ← readJson readPublishResponse (send request)
  return ⟨response.name, trimEndSlashes registry ++ response.path⟩

def fetchedName (artifact : String) : String :=
  trimStartMatches (trimStartSlashes artifact) "artifacts/"

def artifactUrl (registry artifact : String) : String :=
  trimEndSlashes registry ++ "/artifacts/" ++ fetchedName artifact

/-- `fetch`: the bytes that it writes to its output file. -/
def fetch (artifact registry : String) (get : String → Result Bytes) : Result Bytes :=
  get (artifactUrl registry artifact)

def revocationsUrl (registry issuer : String) : String :=
  trimEndSlashes registry ++ "/revocations/" ++ trimSlashes (trim issuer) ++ "/revocations.json"

/-- `publish_revocations`, up to the request. The file is read twice. -/
def revocationsPost (checked sent : Result Bytes) (issuer : Option String) (registry : String)
    (token : Option String) : Result Post := do
  let revocations ← readJson readList checked
  RevocationList.verify C revocations
  let issuer := (issuer.filter (· ≠ "")).getD revocations.publicKey
  ensure (issuer = revocations.publicKey)
    "revocations issuer path must match revocation signer public key"
  let bytes ← sent
  return {
    url := revocationsUrl registry issuer
    contentType := "application/qcap-revocations+json"
    name := none
    authorization := bearer token
    body := bytes }

def publishRevocations (checked sent : Result Bytes) (issuer : Option String) (registry : String)
    (token : Option String) (send : Post → Result Bytes) : Result Published := do
  let request ← revocationsPost C checked sent issuer registry token
  let response ← readJson readRevocationResponse (send request)
  return ⟨response.issuer, trimEndSlashes registry ++ response.path⟩

/-- `fetch_revocations_from_url`. -/
def fetchFromUrl (url : String) (get : String → Result Bytes) : Result RevocationList :=
  OpenArchive.fetchRevocations C (readJson readList (get url))

/-- `fetch_revocations`: the bytes that it writes to its output file. -/
def fetchRevocations (issuer registry : String) (get : String → Result Bytes) : Result Bytes :=
  listBytes <$> fetchFromUrl C (revocationsUrl registry issuer) get

example : fetchedName "/artifacts/a.qcap" = "a.qcap" ∧ fetchedName "a.qcap" = "a.qcap" := by
  decide

/-- The characters of a path that a URL keeps. The other ones are written in percent form and
read back, or they end the path. -/
def keptChar (c : Char) : Bool := c ∉ ['?', '#', '%', '\\'] && 32 ≤ c.toNat

structure UrlPath (path : String) : Prop where
  rooted : startsWith path "/" = true
  chars : ∀ c ∈ path.toList, keptChar c = true
  segments : ∀ segment ∈ splitOn path '/', segment ≠ "." ∧ segment ≠ ".."
  closed : path.toList.getLast? ≠ some ' '

structure UrlSegment (name : String) : Prop where
  segment : Segment name
  chars : ∀ c ∈ name.toList, keptChar c = true
  closed : name.toList.getLast? ≠ some ' '

/-- `target` gives the path that the server at `registry` is asked for. -/
def Delivers (target : String → String) (registry : String) : Prop :=
  ∀ path, UrlPath path → target (trimEndSlashes registry ++ path) = path

variable {C} {target : String → String} {registry dir name key : String}

theorem UrlPath.child (h : UrlPath dir) (hn : UrlSegment name) : UrlPath (dir ++ "/" ++ name) := by
  have hlist : (dir ++ "/" ++ name).toList = dir.toList ++ '/' :: name.toList := by
    simp [String.toList_append]
  have hsplit : splitOn (dir ++ "/" ++ name) '/' = splitOn dir '/' ++ [name] := by
    rw [← splitOn_of_free hn.segment.no_slash]
    exact splitOn_append dir name '/'
  constructor
  · obtain ⟨rest, hrest⟩ := startsWith_iff.mp h.rooted
    rw [hrest, String.append_assoc, String.append_assoc]
    exact startsWith_append _ _
  · intro c hc
    rw [hlist, List.mem_append, List.mem_cons] at hc
    rcases hc with hc | rfl | hc
    · exact h.chars c hc
    · decide
    · exact hn.chars c hc
  · intro segment hs
    rw [hsplit, List.mem_append, List.mem_singleton] at hs
    rcases hs with hs | rfl
    · exact h.segments segment hs
    · exact hn.segment.plain.2
  · have hne : name.toList ≠ [] := by simpa using hn.segment.plain.1
    rw [hlist, List.getLast?_append_cons, List.getLast?_cons_of_ne_nil hne]
    exact hn.closed

theorem urlPath_artifacts : UrlPath "/artifacts" :=
  ⟨by decide, List.all_eq_true.mp (by decide), by decide, by decide⟩

theorem urlPath_revocations : UrlPath "/revocations" :=
  ⟨by decide, List.all_eq_true.mp (by decide), by decide, by decide⟩

theorem ext_getLast {s : String} (h : ext s = ".qcap") : s.toList.getLast? ≠ some ' ' := by
  intro hlast
  obtain ⟨rest, hrest⟩ := List.getLast?_eq_some_iff.mp hlast
  have htail : s.toList.reverse = ' ' :: rest.reverse := by rw [hrest]; simp
  obtain ⟨front, hfront⟩ : ∃ front, ((' ' :: rest.reverse).takeWhile (· ≠ '.')).reverse =
      front ++ [' '] := ⟨(rest.reverse.takeWhile (· ≠ '.')).reverse, by simp⟩
  rw [ext, htail] at h
  by_cases hdot : '.' ∈ ' ' :: rest.reverse
  · rw [if_pos hdot, hfront, ← List.cons_append] at h
    have hl := congrArg (fun s => s.toList.getLast?) h
    simp only [String.toList_ofList, List.getLast?_concat] at hl
    exact absurd hl (by decide)
  · simp [hdot] at h

theorem urlSegment_stored {cfg : Config} (h : StoredName cfg name)
    (hc : ∀ c ∈ name.toList, keptChar c = true) : UrlSegment name :=
  ⟨h.segment, hc, ext_getLast h.qcap⟩

theorem keptChar_hex {c : Char} (h : (hexValue c).isSome) : keptChar c = true := by
  have hr := hexValue_ascii h
  have hne : c ∉ ['?', '#', '%', '\\'] := by
    intro hm
    simp only [List.mem_cons, List.not_mem_nil, or_false] at hm
    rcases hm with rfl | rfl | rfl | rfl <;> cases h
  simp only [keptChar, hne, not_false_eq_true, decide_true, Bool.true_and, decide_eq_true_eq]
  omega

theorem urlSegment_hexKey (h : HexKey key) : UrlSegment key := by
  refine ⟨⟨h.plain, h.free (by decide), h.free (by decide)⟩, ?_, ?_⟩
  · intro c hc
    exact keptChar_hex (h.digits c hc)
  · intro hlast
    have hd := h.digits ' ' (List.mem_of_getLast? hlast)
    cases hd

theorem dropPrefixes_free {p cs : List Char} {c : Char} (hp : c ∈ p) (hcs : c ∉ cs) (n : ℕ) :
    dropPrefixes p n cs = cs := by
  cases n with
  | zero => rfl
  | succ n =>
    rw [dropPrefixes, if_neg]
    intro h
    exact hcs ((List.isPrefixOf_iff_prefix.mp h).subset hp)

theorem trimStartMatches_free {p : String} {c : Char} (hp : c ∈ p.toList) (hn : Free c name) :
    trimStartMatches name p = name := by
  rw [trimStartMatches, dropPrefixes_free hp hn, String.ofList_toList]

theorem fetchedName_name (hn : Free '/' name) : fetchedName name = name := by
  have hslash : trimStartSlashes name = name := by
    have hdrop : name.toList.dropWhile (· = '/') = name.toList := by
      rw [List.dropWhile_eq_self_iff]
      intro hl h
      exact hn (of_decide_eq_true h ▸ List.getElem_mem hl)
    rw [trimStartSlashes, hdrop, String.ofList_toList]
  rw [fetchedName, hslash]
  exact trimStartMatches_free (by decide) hn

theorem mem_trim {s : String} {c : Char} (h : c ∈ (trim s).toList) : c ∈ s.toList := by
  rw [trim, String.toList_ofList, List.mem_reverse] at h
  have hmem := (List.dropWhile_sublist _).subset h
  rw [List.mem_reverse] at hmem
  exact (List.dropWhile_sublist _).subset hmem

theorem kept_artifactName {rawName : String} (h : artifactName rawName = some name)
    (hc : ∀ c ∈ rawName.toList, keptChar c = true) : ∀ c ∈ name.toList, keptChar c = true := by
  have htrim : ∀ c ∈ (trim rawName).toList, keptChar c = true := fun c hm => hc c (mem_trim hm)
  have hclean : ∀ clean, (if trim rawName = "" then "artifact.qcap" else
      safeArtifactName rawName) = clean → ∀ c ∈ clean.toList, keptChar c = true := by
    rintro _ rfl
    by_cases hraw : trim rawName = ""
    · rw [if_pos hraw]
      exact List.all_eq_true.mp (by decide)
    rw [if_neg hraw, safeArtifactName]
    by_cases hp : isPlainName (trim rawName) = true
    · rw [if_pos hp]
      exact htrim
    · rw [if_neg hp]
      exact List.all_eq_true.mp (by decide)
  unfold artifactName at h
  generalize hs : (if trim rawName = "" then "artifact.qcap" else safeArtifactName rawName) =
    clean at h
  dsimp only at h
  by_cases hempty : clean = ""
  · rw [if_pos hempty] at h
    cases h
  rw [if_neg hempty] at h
  cases h
  by_cases he : ext clean = ".qcap"
  · rw [if_pos he]
    exact hclean clean hs
  · rw [if_neg he, String.toList_append, List.forall_mem_append]
    exact ⟨hclean clean hs, List.all_eq_true.mp (by decide)⟩

theorem publish_target (ht : Delivers target registry) :
    target (trimEndSlashes registry ++ "/artifacts") = "/artifacts" :=
  ht _ urlPath_artifacts

theorem artifactUrl_eq {artifact : String} (ha : fetchedName artifact = name) :
    artifactUrl registry artifact = trimEndSlashes registry ++ ("/artifacts/" ++ name) := by
  rw [artifactUrl, ha, String.append_assoc]

theorem artifactUrl_target {artifact : String} (ht : Delivers target registry)
    (ha : fetchedName artifact = name) (hn : UrlSegment name) :
    target (artifactUrl registry artifact) = "/artifacts/" ++ name := by
  have hpath := urlPath_artifacts.child hn
  have hdir : "/artifacts" ++ "/" ++ name = "/artifacts/" ++ name := by
    have hjoin : "/artifacts" ++ "/" = "/artifacts/" := by decide
    rw [hjoin]
  rw [hdir] at hpath
  rw [artifactUrl_eq ha]
  exact ht _ hpath

theorem revocationsUrl_eq (h : HexKey key) :
    revocationsUrl registry key = trimEndSlashes registry ++ listUrl key := by
  have hslash : Free '/' key := h.free (by decide)
  rw [revocationsUrl, h.trim, trimSlashes_free hslash, listUrl]
  simp only [String.append_assoc]

theorem urlPath_list (h : HexKey key) : UrlPath (listUrl key) := by
  have hname : UrlSegment "revocations.json" := by
    refine ⟨⟨?_, by decide, by decide⟩, List.all_eq_true.mp (by decide), by decide⟩
    unfold Plain
    decide
  have hpath := (urlPath_revocations.child (urlSegment_hexKey h)).child hname
  have hlist : "/revocations" ++ "/" ++ key ++ "/" ++ "revocations.json" = listUrl key := by
    have hhead : "/revocations/" = "/revocations" ++ "/" := by decide
    have htail : "/revocations.json" = "/" ++ "revocations.json" := by decide
    rw [listUrl, hhead, htail, ← String.append_assoc]
  rw [hlist] at hpath
  exact hpath

theorem revocationsUrl_target (ht : Delivers target registry) (h : HexKey key) :
    target (revocationsUrl registry key) = listUrl key := by
  rw [revocationsUrl_eq h]
  exact ht _ (urlPath_list h)

end QCap.RegistryClient

import QCap.RegistryNames

/-!
# The HTTP service

The routes of the mux and the handlers that read: downloads, revocation lists, the index and
the health report.
-/
namespace QCap.RegistryService

open QCap.Text QCap.Crypto QCap.RegistryArchive QCap.RegistryFiles QCap.RegistryIndex
open QCap.RegistryPublish QCap.IndexReload QCap.CleanNames QCap.RegistryNames

variable (C : Primitives) (G : GoLib) (X : IndexCodec) (cfg : Config)

inductive Route where
  | root
  | health
  | healthHTML
  | indexJSON
  | indexHTML
  | publish
  | artifact
  | revocations
  | redirect
  deriving DecidableEq

/-- `cleanPath` of the mux: a trailing slash stays. -/
def muxPath (p : String) : String :=
  if p = "" then "/"
  else
    let rooted := if startsWith p "/" then p else "/" ++ p
    let cleaned := cleanPath rooted
    if endsWith rooted "/" && cleaned ≠ "/" then cleaned ++ "/" else cleaned

def patterns : List (String × Route) :=
  [("/health", .health), ("/health.html", .healthHTML), ("/index.json", .indexJSON),
    ("/index", .indexHTML), ("/artifacts", .publish)]

/-- The mux of `handler`. It redirects a path that is not clean, and `/revocations`, which is
registered with a trailing slash only. -/
def route (urlPath : String) : Route :=
  if muxPath urlPath ≠ urlPath then .redirect
  else
    match patterns.lookup urlPath with
    | some r => r
    | none =>
      if startsWith urlPath "/artifacts/" then .artifact
      else if startsWith urlPath "/revocations/" then .revocations
      else if urlPath = "/revocations" then .redirect
      else .root

example : route "/artifacts" = .publish ∧ route "/artifacts/a.qcap" = .artifact ∧
    route "/artifacts//a.qcap" = .redirect ∧ route "/nothing" = .root := by
  decide

inductive FileReply where
  | file (bytes : Bytes)
  | error (status : ℕ) (text : String)
  | redirect
  deriving DecidableEq

def notFound : FileReply := .error 404 "404 page not found"

def isSlash (c : Char) : Bool := c = '/' || c = '\\'

/-- What `http.ServeFile` makes of a whole file, or of one that is missing; a directory in its
place is left out. It redirects no path for a trailing slash. -/
def fileReply (urlPath : String) (content : Option Bytes) : FileReply :=
  if ['.', '.'] ∈ urlPath.toList.splitOnP isSlash then .error 400 "invalid URL path"
  else if endsWith urlPath "/index.html" then .redirect
  else
    match content with
    | none => notFound
    | some bytes => .file bytes

theorem fileReply_file {urlPath : String} {content : Option Bytes} {bytes : Bytes}
    (h : fileReply urlPath content = .file bytes) : content = some bytes := by
  unfold fileReply at h
  by_cases hdots : ['.', '.'] ∈ urlPath.toList.splitOnP isSlash
  · rw [if_pos hdots] at h
    cases h
  rw [if_neg hdots] at h
  by_cases hindex : endsWith urlPath "/index.html" = true
  · rw [if_pos hindex] at h
    cases h
  rw [if_neg hindex] at h
  cases content with
  | none => cases h
  | some bytes' =>
    cases h
    rfl

def serveFile (urlPath : String) (p : Path) (files : Files) : FileReply :=
  fileReply urlPath (files.lookup p)

/-- `artifact`. -/
def serveArtifact (urlPath : String) (files : Files) : FileReply :=
  match requestedName urlPath with
  | none => notFound
  | some name => serveFile urlPath (cfg.artifactPath name) files

/-- `serveRevocations`, behind the check of the issuer in `revocations`. -/
def serveRevocations (urlPath : String) (files : Files) : FileReply :=
  let issuer := revocationIssuerFromPath urlPath
  if issuer = "" then notFound else serveFile urlPath (cfg.revocationPath issuer) files

def directories (dir : Path) (files : Files) : List String :=
  (files.keys.filterMap fun p =>
    match dir.isPrefixOf? p with
    | some (name :: _ :: _) => some name
    | _ => none).dedup

def revocationIssuerCount (files : Files) : ℕ :=
  (directories (cfg.storeDir ++ ["revocations"]) files).length

structure HttpRequest where
  method : String
  urlPath : String
  authorization : String
  name : String
  body : Bytes

inductive Answer where
  | page (route : Route)
  | health (status : String) (authRequired : Bool) (artifacts revocations : ℕ)
  | index (capsules : List Capsule)
  | indexPage (capsules : List Capsule)
  | posted (response : Response)
  | file (reply : FileReply)
  | error (status : ℕ) (text : String)
  | redirect

def readAnswer (urlPath : String) (reg : Registry) : Option Answer :=
  match route urlPath with
  | .artifact => some (.file (serveArtifact cfg urlPath reg.files))
  | .revocations => some (.file (serveRevocations cfg urlPath reg.files))
  | .indexJSON => some (.index reg.index)
  | .indexHTML => some (.indexPage reg.index)
  | _ => none

def methodNotAllowed : Answer := .error 405 "method not allowed"

def handle (env : Env) (numbers : Numbers) (modTime : Path → String) (req : HttpRequest)
    (reg : Registry) : Answer × Registry :=
  match route req.urlPath with
  | .root => (.page .root, reg)
  | .healthHTML => (.page .healthHTML, reg)
  | .redirect => (.redirect, reg)
  | .health =>
    (.health "ok" (decide (cfg.token ≠ "")) reg.index.length
      (revocationIssuerCount cfg reg.files), reg)
  | .indexJSON =>
    let reg := (loadIndexLocked C X cfg numbers modTime reg).2
    (.index reg.index, reg)
  | .indexHTML =>
    let reg := (loadIndexLocked C X cfg numbers modTime reg).2
    (.indexPage reg.index, reg)
  | .publish =>
    if req.method ≠ "POST" then (methodNotAllowed, reg)
    else
      let answer := post C G X cfg env ⟨.artifact req.name, req.authorization, req.body⟩ reg
      (.posted answer.1, answer.2)
  | .artifact => (.file (serveArtifact cfg req.urlPath reg.files), reg)
  | .revocations =>
    if revocationIssuerFromPath req.urlPath = "" then (.file notFound, reg)
    else if req.method = "GET" then (.file (serveRevocations cfg req.urlPath reg.files), reg)
    else if req.method = "POST" then
      let answer := post C G X cfg env
        ⟨.revocations req.urlPath, req.authorization, req.body⟩ reg
      (.posted answer.1, answer.2)
    else (methodNotAllowed, reg)

variable {C G X cfg}

theorem serveArtifact_file {urlPath : String} {files : Files} {bytes : Bytes}
    (h : serveArtifact cfg urlPath files = .file bytes) : ∃ name,
      requestedName urlPath = some name ∧ files.lookup (cfg.artifactPath name) = some bytes := by
  unfold serveArtifact at h
  cases hn : requestedName urlPath with
  | none =>
    rw [hn] at h
    cases h
  | some name =>
    rw [hn] at h
    exact ⟨name, rfl, fileReply_file h⟩

theorem serveRevocations_file {urlPath : String} {files : Files} {bytes : Bytes}
    (h : serveRevocations cfg urlPath files = .file bytes) :
    files.lookup (cfg.revocationPath (revocationIssuerFromPath urlPath)) = some bytes := by
  unfold serveRevocations at h
  rcases eq_or_ne (revocationIssuerFromPath urlPath) "" with hissuer | hissuer
  · rw [if_pos hissuer] at h
    cases h
  · rw [if_neg hissuer] at h
    exact fileReply_file h

theorem route_revocations {urlPath : String} (h : route urlPath = .revocations) :
    ∃ rest, urlPath = "/revocations/" ++ rest := by
  unfold route at h
  split at h
  · cases h
  split at h
  · rename_i r hlookup
    subst h
    obtain ⟨before, after, hsplit, -⟩ := List.lookup_eq_some_iff.mp hlookup
    have hmem : (urlPath, Route.revocations) ∈ patterns := by
      rw [hsplit]
      exact List.mem_append_right _ List.mem_cons_self
    simp [patterns] at hmem
  split at h
  · cases h
  split at h
  · rename_i hstart
    exact startsWith_iff.mp hstart
  split at h
  · cases h
  · cases h

theorem requestedName_trim {urlPath name : String} (h : requestedName urlPath = some name) :
    ∃ raw, urlPath = "/artifacts/" ++ raw ∧ trim raw = name := by
  obtain ⟨raw, hurl, hsafe, hne, -⟩ := requestedName_eq.mp h
  refine ⟨raw, hurl, ?_⟩
  rw [safeArtifactName] at hsafe
  split at hsafe
  · exact hsafe
  · exact absurd hsafe.symm hne

theorem trimmed_within (cs : List Char) (drop : Char → Bool) :
    ((cs.dropWhile drop).reverse.dropWhile drop).reverse <:+: cs := by
  have hsuffix := List.dropWhile_suffix (l := (cs.dropWhile drop).reverse) drop
  have hprefix := List.reverse_prefix.mpr hsuffix
  rw [List.reverse_reverse] at hprefix
  exact hprefix.isInfix.trans (List.dropWhile_suffix drop).isInfix

theorem revocationIssuer_within (rest : String) :
    (revocationIssuerFromPath ("/revocations/" ++ rest)).toList <:+: rest.toList := by
  have hsuffix : (trimSuffix rest "/revocations.json").toList <:+: rest.toList := by
    rw [trimSuffix, stripSuffix]
    split
    · rw [Option.getD_some, String.toList_ofList]
      exact (List.take_prefix _ _).isInfix
    · exact List.infix_rfl
  have hslashes : (trimSlashes (trimSuffix rest "/revocations.json")).toList <:+: rest.toList := by
    rw [trimSlashes, String.toList_ofList]
    exact (trimmed_within _ _).trans hsuffix
  rw [revocationIssuerFromPath, stripPrefix_append, Option.getD_some]
  split
  · exact List.nil_infix
  · rw [safePathSegment]
    split
    · rw [trim, String.toList_ofList]
      exact (trimmed_within _ _).trans hslashes
    · exact List.nil_infix

theorem fields_segment (front : String) {name : String} (hn : Segment name) :
    (front ++ "/" ++ name).toList.splitOnP isSlash =
      front.toList.splitOnP isSlash ++ [name.toList] := by
  have hfree : ∀ c ∈ name.toList, isSlash c = false := by
    intro c hc
    have hslash : c ≠ '/' := fun he => hn.no_slash (he ▸ hc)
    have hback : c ≠ '\\' := fun he => hn.no_backslash (he ▸ hc)
    simp [isSlash, hslash, hback]
  have hlist : (front ++ "/" ++ name).toList = front.toList ++ '/' :: name.toList := by
    simp [String.toList_append]
  rw [hlist, List.splitOnP_append_cons _ _ (by decide), List.splitOnP_eq_singleton hfree]

theorem endsWith_slash {front name : String} (last : String) (hn : Segment name)
    (hl : ∀ c ∈ last.toList, isSlash c = false)
    (h : endsWith (front ++ "/" ++ name) ("/" ++ last) = true) : name = last := by
  obtain ⟨t, ht⟩ := List.isSuffixOf_iff_suffix.mp h
  have hslash : ("/" ++ last).toList = '/' :: last.toList := by simp [String.toList_append]
  have hfields := fields_segment front hn
  rw [← ht, hslash, List.splitOnP_append_cons _ _ (by decide),
    List.splitOnP_eq_singleton hl] at hfields
  have hlast := (List.append_inj' hfields rfl).2
  exact String.toList_inj.mp (List.singleton_inj.mp hlast).symm

theorem not_endsWith_slash {front name : String} (hn : Segment name) :
    endsWith (front ++ "/" ++ name) "/" = false := by
  by_contra h
  have he : endsWith (front ++ "/" ++ name) ("/" ++ "") = true := by
    rw [String.append_empty]
    exact Bool.not_eq_false _ ▸ h
  exact hn.plain.1 (endsWith_slash "" hn (by simp) he)

theorem fileReply_segment {front name : String} (hn : Segment name)
    (hfront : ['.', '.'] ∉ front.toList.splitOnP isSlash) (hindex : name ≠ "index.html")
    (content : Option Bytes) :
    fileReply (front ++ "/" ++ name) content = content.elim notFound .file := by
  have hdots : ['.', '.'] ∉ (front ++ "/" ++ name).toList.splitOnP isSlash := by
    rw [fields_segment front hn, List.mem_append, List.mem_singleton, not_or]
    refine ⟨hfront, ?_⟩
    intro he
    exact hn.plain.2.2 (String.toList_inj.mp he.symm)
  have hpage : ¬ endsWith (front ++ "/" ++ name) "/index.html" = true := by
    intro he
    exact hindex (endsWith_slash "index.html" hn (by simp [isSlash]) he)
  unfold fileReply
  rw [if_neg hdots, if_neg hpage]
  cases content with
  | none => rfl
  | some bytes => rfl

theorem muxPath_segment {front name : String} (hn : Segment name)
    (hroot : startsWith (front ++ "/" ++ name) "/" = true)
    (hclean : cleanPath (front ++ "/" ++ name) = front ++ "/" ++ name) :
    muxPath (front ++ "/" ++ name) = front ++ "/" ++ name := by
  have hne : front ++ "/" ++ name ≠ "" := by
    intro he
    have hlist := congrArg String.toList he
    simp [String.toList_append] at hlist
  simp [muxPath, hne, hroot, hclean, not_endsWith_slash hn]

theorem patterns_lookup {dir rest : String} (h : ∀ p ∈ patterns, startsWith p.1 dir = false) :
    patterns.lookup (dir ++ rest) = none := by
  rw [List.lookup_eq_none_iff]
  intro p hp
  have hd := h p hp
  by_contra hb
  have he : dir ++ rest = p.1 := by simpa using hb
  rw [← he, startsWith_append] at hd
  cases hd

theorem route_download {name : String} (h : StoredName cfg name) :
    route ("/artifacts/" ++ name) = .artifact ∧
      ∀ content, fileReply ("/artifacts/" ++ name) content = content.elim notFound .file := by
  have hdir : "/artifacts/" = "/artifacts" ++ "/" := by decide
  have hsplit : "/artifacts/" ++ name = "/artifacts" ++ "/" ++ name := by rw [hdir]
  have hindex : name ≠ "index.html" := by
    rintro rfl
    exact absurd h.qcap (by decide)
  have hclean := h.path_clean
  rw [hsplit] at hclean
  have hroot : startsWith ("/artifacts" ++ "/" ++ name) "/" = true := by
    rw [startsWith_iff]
    exact ⟨"artifacts/" ++ name, by rw [← hsplit, ← String.append_assoc]; rfl⟩
  have hmux : muxPath ("/artifacts/" ++ name) = "/artifacts/" ++ name := by
    rw [hsplit]
    exact muxPath_segment h.segment hroot hclean
  constructor
  · rw [route, if_neg (not_not.mpr hmux), patterns_lookup (by decide), startsWith_append]
    exact if_pos rfl
  · intro content
    rw [hsplit]
    exact fileReply_segment h.segment (by decide) hindex content

theorem route_list {issuer : String} (hkey : HexKey issuer) :
    route (listUrl issuer) = .revocations ∧
      ∀ content, fileReply (listUrl issuer) content = content.elim notFound .file := by
  have hname : Segment "revocations.json" := ⟨by unfold Plain; decide, by decide, by decide⟩
  have hhead : "/revocations/" = "/revocations" ++ "/" := by decide
  have htail : "/revocations.json" = "/" ++ "revocations.json" := by decide
  have hsplit : listUrl issuer = "/revocations" ++ "/" ++ issuer ++ "/" ++ "revocations.json" := by
    rw [listUrl, hhead, htail, ← String.append_assoc]
  have hissuer : Segment issuer :=
    ⟨hkey.plain, hkey.free (by decide), hkey.free (by decide)⟩
  have hclean := listUrl_clean hkey
  rw [hsplit] at hclean
  have hroot : startsWith (listUrl issuer) "/" = true := by
    rw [startsWith_iff]
    refine ⟨"revocations/" ++ issuer ++ "/revocations.json", ?_⟩
    rw [listUrl, ← String.append_assoc, ← String.append_assoc]
    rfl
  rw [hsplit] at hroot
  have hmux : muxPath (listUrl issuer) = listUrl issuer := by
    rw [hsplit]
    exact muxPath_segment hname hroot hclean
  have hdir : listUrl issuer = "/revocations/" ++ (issuer ++ "/revocations.json") := by
    rw [listUrl, String.append_assoc]
  have hother : startsWith (listUrl issuer) "/artifacts/" = false := by
    rw [hdir]
    simp [startsWith, String.toList_append, List.isPrefixOf]
  constructor
  · rw [route, if_neg (not_not.mpr hmux), hother, hdir, patterns_lookup (by decide),
      startsWith_append]
    exact (if_neg Bool.false_ne_true).trans (if_pos rfl)
  · intro content
    rw [hsplit]
    refine fileReply_segment hname ?_ (by decide) content
    rw [fields_segment "/revocations" hissuer, List.mem_append, List.mem_singleton, not_or]
    refine ⟨by decide, ?_⟩
    intro he
    exact hissuer.plain.2.2 (String.toList_inj.mp he.symm)

/-- The routes of `readAnswer`; those of the index load it before. -/
def Route.Reads : Route → Bool
  | .artifact | .revocations | .indexJSON | .indexHTML => true
  | _ => false

def Route.Loads : Route → Bool
  | .indexJSON | .indexHTML => true
  | _ => false

/-- A GET is a load of the index, if it is about that, and a read. -/
theorem handle_get (env : Env) (numbers : Numbers) (modTime : Path → String) {req : HttpRequest}
    (reg : Registry) (hm : req.method = "GET") (hr : (route req.urlPath).Reads = true) :
    let loaded := if (route req.urlPath).Loads then (loadIndexLocked C X cfg numbers modTime reg).2
      else reg
    (handle C G X cfg env numbers modTime req reg).2 = loaded ∧
      readAnswer cfg req.urlPath loaded =
        some (handle C G X cfg env numbers modTime req reg).1 := by
  unfold handle readAnswer
  cases h : route req.urlPath with
  | indexJSON => exact ⟨rfl, rfl⟩
  | indexHTML => exact ⟨rfl, rfl⟩
  | artifact => exact ⟨rfl, rfl⟩
  | revocations =>
    dsimp only [Route.Loads]
    by_cases hi : revocationIssuerFromPath req.urlPath = ""
    · rw [if_pos hi]
      exact ⟨rfl, by simp [serveRevocations, hi]⟩
    · rw [if_neg hi, if_pos hm]
      exact ⟨rfl, rfl⟩
  | root | health | healthHTML | publish | redirect =>
    rw [h] at hr
    cases hr

end QCap.RegistryService

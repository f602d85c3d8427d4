import QCap.RegistryClient
import QCap.RegistryRefinement

/-!
# Client and registry

What one client uploaded another one gets: an artifact under the name and the URL that
`publish` printed, a revocation list in `open --revocations-url`. Other requests, kills and
restarts may come in between.
-/
namespace QCap.Exchange

open QCap.Text QCap.Crypto QCap.Formats QCap.Refinement QCap.Revocation QCap.Signatures
open QCap.RegistryArchive QCap.RegistryIndex QCap.GoDocuments
open QCap.RegistryPublish hiding publish publishRevocations
open QCap.RegistryNames QCap.RegistryRuns QCap.RegistryService QCap.RegistryStore
open QCap.RegistryRefinement QCap.ListAgreement QCap.GoEncoder
open QCap.RegistryClient QCap.SealedDocuments
open QCap.GoJson (goLibrary)
open QCap.IndexJson (capsuleValue goIndexCodec goIndexCodec_readsBack)
open QCap.SerdeDocuments (readList listBytes readList_listBytes)
open QCap.PathTree (Tree)
open QCap.OpenArchive (OpenRequest openArchive authorize authorize_ok loadRevocations)

variable (C : Primitives) (G : GoLib) (X : IndexCodec) (cfg : Config)

def Post.request (target : String → String) (p : Post) : Option Request :=
  match route (target p.url) with
  | .publish => some ⟨.artifact (p.name.getD ""), p.authorization.getD "", p.body⟩
  | .revocations => some ⟨.revocations (target p.url), p.authorization.getD "", p.body⟩
  | _ => none

def answerTo (target : String → String) (p : Post) (now : String) : Option Seen :=
  (Post.request target p).bind fun r =>
    (destination r.target).map fun dest => success C dest r.body now

def answerDocument : Seen → Result Bytes
  | .created capsule => .ok (encode (capsuleValue capsule))
  | .listed document => .ok (encode (documentValue document))
  | _ => .error (.message "no answer to an upload")

def Receives (answer : Answer) (got : Result Bytes) : Prop :=
  match answer with
  | .file (.file bytes) => got = .ok bytes
  | .file (.error _ _) => ∃ e, got = .error e
  | _ => True

/-- Two contents that the registry cannot tell apart. -/
structure Collide (bytes body : Bytes) : Prop where
  distinct : bytes ≠ body
  length : bytes.length = body.length
  digest : C.sha256 bytes = C.sha256 body

variable {C G X cfg} {target : String → String} {registry now : String} {token : Option String}
  {body : Bytes} {request : Post} {seen : Seen}

theorem answerTo_artifact (h : route (target request.url) = .publish) :
    answerTo C target request now = (destination (.artifact (request.name.getD ""))).map fun dest =>
      success C dest request.body now := by
  have hrequest : Post.request target request = some
      ⟨.artifact (request.name.getD ""), request.authorization.getD "", request.body⟩ := by
    rw [Post.request, h]
  rw [answerTo, hrequest, Option.bind_some]

theorem answerTo_list (h : route (target request.url) = .revocations) :
    answerTo C target request now =
      (destination (.revocations (target request.url))).map fun dest =>
        success C dest request.body now := by
  have hrequest : Post.request target request = some
      ⟨.revocations (target request.url), request.authorization.getD "", request.body⟩ := by
    rw [Post.request, h]
  rw [answerTo, hrequest, Option.bind_some]

theorem same_or_collide {bytes : Bytes} (hl : bytes.length = body.length)
    (h : fileDigest C bytes = fileDigest C body) : bytes = body ∨ Collide C bytes body := by
  by_cases hb : bytes = body
  · exact .inl hb
  · have hhex := (String.append_right_inj _).mp h
    exact .inr ⟨hb, hl, Subtype.ext (hexEncode_injective hhex)⟩

theorem publishPost_ok {fileName : String}
    (h : publishPost (.ok body) (some fileName) registry token = .ok request) :
    request.url = trimEndSlashes registry ++ "/artifacts" ∧ request.name = some fileName ∧
      request.body = body := by
  cases h
  exact ⟨rfl, rfl, rfl⟩

theorem answerTo_publish {fileName : String} (ht : Delivers target registry)
    (hpost : publishPost (.ok body) (some fileName) registry token = .ok request)
    (hseen : answerTo C target request now = some seen) :
    ∃ name, artifactName fileName = some name ∧
      seen = .created (artifactCapsule name body.length (fileDigest C body) now) := by
  obtain ⟨hurl, hname, hbody⟩ := publishPost_ok hpost
  have hroute : route (target request.url) = .publish := by
    rw [hurl, publish_target ht]
    decide
  rw [answerTo_artifact hroute, hname, hbody, Option.getD_some, destination,
    Option.map_map] at hseen
  obtain ⟨name, hn, rfl⟩ := Option.map_eq_some_iff.mp hseen
  exact ⟨name, hn, rfl⟩

def sampleRegistry : String := "http://localhost:8080"

def sampleTarget (url : String) : String := (stripPrefix url sampleRegistry).getD ""

theorem sampleTarget_delivers : Delivers sampleTarget sampleRegistry := by
  intro path _
  have htrim : trimEndSlashes sampleRegistry = sampleRegistry := by decide
  rw [htrim, sampleTarget, stripPrefix_append, Option.getD_some]

def received : Answer → Result Bytes
  | .file (.file bytes) => .ok bytes
  | _ => .error (.message "no file")

theorem receives_received (answer : Answer) : Receives answer (received answer) := by
  cases answer with
  | file reply =>
    cases reply with
    | file bytes => exact rfl
    | error status text => exact ⟨_, rfl⟩
    | redirect => trivial
  | page _ | health _ _ _ _ | index _ | indexPage _ | posted _ | error _ _ | redirect => trivial

def sampleUpload : Post where
  url := trimEndSlashes sampleRegistry ++ "/artifacts"
  contentType := "application/qcap+zip"
  name := some "artifact.qcap"
  authorization := none
  body := sampleArchive

@[irreducible] def sampleServed (files : RegistryFiles.Files) : Answer :=
  .file (serveArtifact sampleConfig sampleCapsule.path files)

def sampleSend (seen : Seen) : Post → Result Bytes := fun _ => answerDocument seen

def sampleGet (served : Answer) : String → Result Bytes := fun _ => received served

theorem sampleUpload_answer :
    answerTo toy sampleTarget sampleUpload "2024-01-01T00:00:00Z" =
      some (.created sampleCapsule) := by
  have hroute : route (sampleTarget sampleUpload.url) = .publish := by
    rw [sampleUpload, publish_target sampleTarget_delivers]
    decide
  have hname : artifactName "artifact.qcap" = some "artifact.qcap" := by decide
  have hdest : destination (.artifact "artifact.qcap") = some (.artifact "artifact.qcap") := by
    rw [destination, hname]
    rfl
  have hupload : sampleUpload.name.getD "" = "artifact.qcap" := rfl
  rw [answerTo_artifact hroute, hupload, hdest, Option.map_some]
  rfl

section

variable {before middle after : List Seen} {answer : Answer} {get : String → Result Bytes}
  {send : Post → Result Bytes} {s : System}

/-- `publish` prints the name and the URL under which the artifact is fetched: as it was
uploaded, until the next upload under the name or a kill, and in any case a valid one. -/
theorem published_fetched (hcfg : cfg.DefaultIndex) (hX : X.ReadsBack)
    (ht : Delivers target registry) {fileName artifact : String}
    (hkept : ∀ c ∈ fileName.toList, keptChar c = true)
    (hpost : publishPost (.ok body) (some fileName) registry token = .ok request)
    (hseen : answerTo C target request now = some seen)
    (hsend : send request = answerDocument seen)
    (h : RunsFromEmpty C G X cfg (before ++ seen ::
      (middle ++ .read (target (artifactUrl registry artifact)) answer :: after)) s)
    (hget : Receives answer (get (artifactUrl registry artifact))) :
    ∃ p, publish (.ok body) (some fileName) registry token send = .ok p ∧
      artifactUrl registry p.subject = p.url ∧
      (fetchedName artifact = p.subject → ∃ bytes, fetch artifact registry get = .ok bytes ∧
        validateQcapArchive C G (G.openReader bytes) = .ok () ∧
        ((∀ s ∈ middle, s.NotCreated p.subject) → bytes = body ∨ Collide C bytes body)) := by
  obtain ⟨name, hname, rfl⟩ := answerTo_publish ht hpost hseen
  have hstored : StoredName cfg name := artifactName_stored cfg hname
  have hsegment : UrlSegment name := urlSegment_stored hstored (kept_artifactName hname hkept)
  have hresponse : readJson readPublishResponse (send request) =
      .ok ⟨name, "/artifacts/" ++ name⟩ := by
    rw [hsend]
    exact readJson_ok.mpr (readPublishResponse_created _)
  refine ⟨⟨name, trimEndSlashes registry ++ ("/artifacts/" ++ name)⟩, ?_, ?_, ?_⟩
  · rw [publish, hpost, ok_bind, hresponse]
    rfl
  · exact artifactUrl_eq (fetchedName_name hstored.segment.no_slash)
  · intro hartifact
    rw [artifactUrl_target ht hartifact hsegment] at h
    obtain ⟨hruns, -⟩ := runs_store hcfg hX h
    obtain ⟨bytes, rfl, hvalid, hsame⟩ := created_download hruns
    refine ⟨bytes, hget, hvalid, ?_⟩
    intro hmiddle
    obtain ⟨hlength, hdigest⟩ := hsame hmiddle
    exact same_or_collide (Nat.cast_inj.mp hlength) hdigest

theorem samplePublish_fetched : ∃ (files : RegistryFiles.Files) (p : Published),
    publish (.ok sampleArchive) (some "artifact.qcap") sampleRegistry none
        (sampleSend (.created sampleCapsule)) = .ok p ∧
      artifactUrl sampleRegistry p.subject = p.url ∧
      (fetchedName "artifact.qcap" = p.subject →
        ∃ bytes, fetch "artifact.qcap" sampleRegistry (sampleGet (sampleServed files)) =
            .ok bytes ∧
          validateQcapArchive toy (legacyGo sampleBundle)
            ((legacyGo sampleBundle).openReader bytes) = .ok () ∧
          (bytes = sampleArchive ∨ Collide toy bytes sampleArchive)) := by
  have hfetched : fetchedName "artifact.qcap" = "artifact.qcap" := by decide
  have htarget : sampleTarget (artifactUrl sampleRegistry "artifact.qcap") =
      sampleCapsule.path := by
    have hstored : StoredName sampleConfig "artifact.qcap" :=
      artifactName_stored sampleConfig (show artifactName "" = some "artifact.qcap" by decide)
    exact artifactUrl_target sampleTarget_delivers hfetched
      (urlSegment_stored hstored (List.all_eq_true.mp (by decide)))
  obtain ⟨s, hkilled⟩ := sampleRun_killed
  have hread : readAnswer sampleConfig sampleCapsule.path s.reg =
      some (sampleServed s.reg.files) := by
    rw [readAnswer, sampleCapsule_route, sampleServed]
  have hrun : RunsFromEmpty toy (legacyGo sampleBundle) (goIndexCodec false) sampleConfig
      ([] ++ .created sampleCapsule :: ([.killed (some (.artifact "other.qcap"))] ++
        .read (sampleTarget (artifactUrl sampleRegistry "artifact.qcap"))
          (sampleServed s.reg.files) :: [])) s := by
    rw [htarget]
    exact (sampleRun_seen.trans hkilled).read hread
  have hpost : publishPost (.ok sampleArchive) (some "artifact.qcap") sampleRegistry none =
      .ok sampleUpload := rfl
  have hsend : sampleSend (.created sampleCapsule) sampleUpload =
      answerDocument (.created sampleCapsule) := rfl
  have hreceived : Receives (sampleServed s.reg.files) (sampleGet (sampleServed s.reg.files)
      (artifactUrl sampleRegistry "artifact.qcap")) := receives_received _
  obtain ⟨p, hp, hurl, hget⟩ := published_fetched sampleConfig_default
    (goIndexCodec_readsBack false) sampleTarget_delivers (List.all_eq_true.mp (by decide)) hpost
    sampleUpload_answer hsend hrun hreceived
  refine ⟨s.reg.files, p, hp, hurl, ?_⟩
  intro hname
  obtain ⟨bytes, hbytes, hvalid, hsame⟩ := hget hname
  refine ⟨bytes, hbytes, hvalid, hsame ?_⟩
  rw [← hname, hfetched]
  simp [Seen.NotCreated]

/-- `open --revocations`. -/
def withFile (r : OpenRequest) (document : Bytes) : OpenRequest :=
  { r with revocations := some (readJson readList (.ok document)), revocationsUrl := none }

/-- `open --revocations-url`. -/
def withResponse (r : OpenRequest) (response : Result Bytes) : OpenRequest :=
  { r with revocations := none, revocationsUrl := some (readJson readList response) }

structure Serves (C : Primitives) (url : String) (get : String → Result Bytes) (body : Bytes)
    (list : RevocationList) : Prop where
  fetched : ∀ registry issuer, revocationsUrl registry issuer = url →
    fetchRevocations C issuer registry get = .ok (listBytes list)
  opened : ∀ J r out, openArchive C J (withResponse r (get url)) out =
    openArchive C J (withFile r body) out
  again : ∀ J r out, openArchive C J (withFile r (listBytes list)) out =
    openArchive C J (withFile r body) out
  barred : ∀ J r out cap, r.cap = .ok cap → RevocationList.revokes list cap = true →
    ∃ e, openArchive C J (withResponse r (get url)) out = (.error e, out)

theorem revocationsPost_ok {issuer : Option String}
    (h : revocationsPost C (.ok body) (.ok body) issuer registry token = .ok request) :
    ∃ list, readList body = some list ∧ RevocationList.verify C list = .ok () ∧
      request.url = revocationsUrl registry list.publicKey ∧ request.body = body := by
  simp only [revocationsPost, bind_ok, readJson_ok, ensure_ok] at h
  obtain ⟨list, hlist, _, hv, _, hissuer, bytes, hbytes, hrequest⟩ := h
  cases hbytes
  cases hrequest
  refine ⟨list, hlist, hv, ?_, rfl⟩
  dsimp only
  rw [hissuer]

theorem hexKey_of_verify {list : RevocationList} (h : RevocationList.verify C list = .ok ()) :
    HexKey list.publicKey := by
  obtain ⟨-, hv⟩ := (RevocationList.verify_ok C).mp h
  obtain ⟨pk, _, hpk, -⟩ := (verifyDetached_ok C).mp hv
  exact hexKey_of_decode hpk pk.property

theorem route_publish {urlPath : String} (h : route urlPath = .publish) :
    urlPath = "/artifacts" := by
  unfold route at h
  by_cases hmux : muxPath urlPath ≠ urlPath
  · rw [if_pos hmux] at h
    cases h
  rw [if_neg hmux] at h
  cases hl : patterns.lookup urlPath with
  | some r =>
    rw [hl] at h
    dsimp only at h
    subst h
    obtain ⟨before, after, hp, -⟩ := List.lookup_eq_some_iff.mp hl
    have hmem : (urlPath, Route.publish) ∈ patterns := by
      rw [hp]
      exact List.mem_append_right _ List.mem_cons_self
    simpa [patterns] using hmem
  | none =>
    rw [hl] at h
    dsimp only at h
    by_cases hartifact : startsWith urlPath "/artifacts/" = true
    · rw [if_pos hartifact] at h
      cases h
    rw [if_neg hartifact] at h
    by_cases hlist : startsWith urlPath "/revocations/" = true
    · rw [if_pos hlist] at h
      cases h
    rw [if_neg hlist] at h
    by_cases hdir : urlPath = "/revocations"
    · rw [if_pos hdir] at h
      cases h
    · rw [if_neg hdir] at h
      cases h

theorem answerTo_revocations {issuer : Option String} (ht : Delivers target registry)
    (hpost : revocationsPost C (.ok body) (.ok body) issuer registry token = .ok request)
    (hseen : answerTo C target request now = some seen) :
    ∃ list, readList body = some list ∧ RevocationList.verify C list = .ok () ∧
      seen = .listed
        (revocationDocument list.publicKey body.length (fileDigest C body) now) := by
  obtain ⟨list, hlist, hv, hurl, hbody⟩ := revocationsPost_ok hpost
  have hkey : HexKey list.publicKey := hexKey_of_verify hv
  have htarget : target request.url = listUrl list.publicKey := by
    rw [hurl, revocationsUrl_target ht hkey]
  refine ⟨list, hlist, hv, ?_⟩
  cases hr : route (target request.url) with
  | publish =>
    have hstart := congrArg (fun path => startsWith path "/revocations/") (route_publish hr)
    rw [htarget, listUrl, String.append_assoc, startsWith_append] at hstart
    exact absurd hstart (by decide)
  | revocations =>
    rw [answerTo_list hr, htarget, hbody, destination, revocationIssuerFromPath_listUrl hkey,
      if_neg hkey.plain.1] at hseen
    cases hseen
    rfl
  | root | health | healthHTML | indexJSON | indexHTML | artifact | redirect =>
    rw [answerTo, Post.request, hr] at hseen
    cases hseen

theorem serves_list {url : String} {list : RevocationList} (hlist : readList body = some list)
    (hv : RevocationList.verify C list = .ok ()) (hget : get url = .ok body) :
    Serves C url get body list := by
  have hfile : ∀ document, readList document = some list →
      loadRevocations C (some (readJson readList (.ok document))) none = .ok (some list) := by
    intro document hdocument
    rw [readJson_ok.mpr hdocument]
    rfl
  have hfetch : fetchFromUrl C url get = .ok list := by
    rw [fetchFromUrl, hget, readJson_ok.mpr hlist]
    simp [OpenArchive.fetchRevocations, hv]
  have hresponse : loadRevocations C none (some (readJson readList (get url))) =
      .ok (some list) := by
    rw [loadRevocations]
    rw [fetchFromUrl] at hfetch
    rw [hfetch]
    rfl
  have hopened : ∀ J r out, openArchive C J (withResponse r (get url)) out =
      openArchive C J (withFile r body) out := by
    intro J r out
    have hauthorize : authorize C J (withResponse r (get url)) =
        authorize C J (withFile r body) := by
      simp only [authorize, withResponse, withFile, hresponse, hfile body hlist]
    exact openArchive_congr hauthorize rfl rfl rfl out
  refine ⟨?_, hopened, ?_, ?_⟩
  · rintro registry issuer rfl
    rw [fetchRevocations, hfetch]
    rfl
  · intro J r out
    have hauthorize : authorize C J (withFile r (listBytes list)) =
        authorize C J (withFile r body) := by
      simp only [authorize, withFile, hfile body hlist, hfile _ (readList_listBytes list)]
    exact openArchive_congr hauthorize rfl rfl rfl out
  · intro J r out cap hcap hrevokes
    cases ha : authorize C J (withResponse r (get url)) with
    | error e =>
      refine ⟨e, ?_⟩
      rw [openArchive, ha]
    | ok granted =>
      obtain ⟨report, identity, access⟩ := granted
      obtain ⟨cap', revocations, hcap', -, hload, hcheck⟩ := (authorize_ok C J).mp ha
      cases hcap.symm.trans hcap'
      cases hresponse.symm.trans hload
      simp only [OpenArchive.checkRevocations, bind_ok, ensure_ok] at hcheck
      obtain ⟨_, _, _, _, hno⟩ := hcheck
      rw [hrevokes] at hno
      cases hno

/-- What `publish-revocations` sends is in force for each client that asks the registry, until
another list of the issuer or a kill. -/
theorem published_list_served (hcfg : cfg.DefaultIndex) (hX : X.ReadsBack)
    (ht : Delivers target registry) {issuer : Option String} {url : String}
    (hpost : revocationsPost C (.ok body) (.ok body) issuer registry token = .ok request)
    (hseen : answerTo C target request now = some seen)
    (hsend : send request = answerDocument seen)
    (h : RunsFromEmpty C G X cfg
      (before ++ seen :: (middle ++ .read (target url) answer :: after)) s)
    (hget : Receives answer (get url)) :
    ∃ list p, readList body = some list ∧
      publishRevocations C (.ok body) (.ok body) issuer registry token send = .ok p ∧
      p.subject = list.publicKey ∧ p.url = revocationsUrl registry list.publicKey ∧
      target p.url = listUrl list.publicKey ∧
      (target url = listUrl list.publicKey →
        (∀ s ∈ middle, s.NotListed list.publicKey) →
        Serves C url get body list ∨ ∃ other, get url = .ok other ∧ Collide C other body) := by
  obtain ⟨list, hlist, hv, rfl⟩ := answerTo_revocations ht hpost hseen
  have hkey : HexKey list.publicKey := hexKey_of_verify hv
  have hresponse : readJson readRevocationResponse (send request) =
      .ok ⟨list.publicKey, listUrl list.publicKey⟩ := by
    rw [hsend, answerDocument, readJson_ok, readRevocationResponse_created,
      revocationDocument_path]
    rfl
  refine ⟨list, ⟨list.publicKey, trimEndSlashes registry ++ listUrl list.publicKey⟩, hlist, ?_,
    rfl, (revocationsUrl_eq hkey).symm, ht _ (urlPath_list hkey), ?_⟩
  · rw [publishRevocations, hpost, ok_bind, hresponse]
    rfl
  · intro hurl hmiddle
    rw [hurl, ← revocationDocument_path list.publicKey body.length (fileDigest C body) now] at h
    obtain ⟨hruns, -⟩ := runs_store hcfg hX h
    obtain ⟨bytes, rfl, -, hsame⟩ := listed_download hruns
    obtain ⟨hlength, hdigest⟩ := hsame hmiddle
    rcases same_or_collide hlength hdigest with rfl | hcollide
    · exact .inl (serves_list hlist hv hget)
    · exact .inr ⟨bytes, hget, hcollide⟩

end

def sampleListPost : Post where
  url := revocationsUrl sampleRegistry exampleIssuer
  contentType := "application/qcap-revocations+json"
  name := none
  authorization := none
  body := sampleList

theorem sampleListPost_made :
    revocationsPost toy (.ok sampleList) (.ok sampleList) none sampleRegistry none =
      .ok sampleListPost := by
  have hread : readList sampleList = some (exampleList "0.1.0" []) := readList_listBytes _
  have hverify := exampleList_verify "0.1.0" []
  simp only [revocationsPost, bind_ok, readJson_ok, ensure_ok]
  exact ⟨_, hread, (), hverify, (), rfl, sampleList, rfl, rfl⟩

@[irreducible] def sampleListServed (files : RegistryFiles.Files) : Answer :=
  .file (serveRevocations sampleConfig sampleDocument.path files)

theorem sampleListPost_answer :
    answerTo toy sampleTarget sampleListPost "2024-01-01T00:00:00Z" =
      some (.listed sampleDocument) := by
  obtain ⟨hkey, -⟩ := validateRevocationList_own sampleList_accepted
  have hstored : StoredList (goLibrary noArchives) sampleConfig exampleIssuer sampleList :=
    storedList_of_valid sampleList_accepted
  have htarget : sampleTarget sampleListPost.url = listUrl exampleIssuer :=
    revocationsUrl_target sampleTarget_delivers hkey
  have hdest : destination (.revocations (listUrl exampleIssuer)) =
      some (.revocations exampleIssuer) := by
    rw [destination, revocationIssuerFromPath_listUrl hkey, if_neg hkey.plain.1]
  have hroute : route (sampleTarget sampleListPost.url) = .revocations := by
    rw [htarget]
    exact (route_list hstored.key).1
  rw [answerTo_list hroute, htarget, hdest, Option.map_some]
  rfl

theorem sampleList_served : ∃ files : RegistryFiles.Files,
    let get := sampleGet (sampleListServed files)
    let url := revocationsUrl sampleRegistry exampleIssuer
    ∃ list p, readList sampleList = some list ∧
      publishRevocations toy (.ok sampleList) (.ok sampleList) none sampleRegistry none
        (sampleSend (.listed sampleDocument)) = .ok p ∧
      p.subject = list.publicKey ∧ p.url = revocationsUrl sampleRegistry list.publicKey ∧
      sampleTarget p.url = listUrl list.publicKey ∧
      (sampleTarget url = listUrl list.publicKey →
        Serves toy url get sampleList list ∨
          ∃ other, get url = .ok other ∧ Collide toy other sampleList) := by
  have hstored : StoredList (goLibrary noArchives) sampleConfig exampleIssuer sampleList :=
    storedList_of_valid sampleList_accepted
  have htarget : sampleTarget (revocationsUrl sampleRegistry exampleIssuer) =
      sampleDocument.path := by
    rw [sampleDocument, revocationDocument_path]
    exact revocationsUrl_target sampleTarget_delivers hstored.key
  obtain ⟨s, hkilled⟩ := sampleListed_killed
  have hread : readAnswer sampleConfig sampleDocument.path s.reg =
      some (sampleListServed s.reg.files) := by
    rw [sampleListServed, readAnswer, sampleDocument, revocationDocument_path,
      (route_list hstored.key).1]
  have hrun : RunsFromEmpty toy (goLibrary noArchives) (goIndexCodec false) sampleConfig
      ([] ++ .listed sampleDocument :: ([.killed none] ++
        .read (sampleTarget (revocationsUrl sampleRegistry exampleIssuer))
          (sampleListServed s.reg.files) :: [])) s := by
    rw [htarget]
    exact (sampleListed_seen.trans hkilled).read hread
  have hsend : sampleSend (.listed sampleDocument) sampleListPost =
      answerDocument (.listed sampleDocument) := rfl
  have hreceived : Receives (sampleListServed s.reg.files)
      (sampleGet (sampleListServed s.reg.files) (revocationsUrl sampleRegistry exampleIssuer)) :=
    receives_received _
  obtain ⟨list, p, hlist, hp, hsubject, hurl, hpath, hserves⟩ := published_list_served
    sampleConfig_default (goIndexCodec_readsBack false) sampleTarget_delivers sampleListPost_made
    sampleListPost_answer hsend hrun hreceived
  exact ⟨s.reg.files, list, p, hlist, hp, hsubject, hurl, hpath, fun htarget =>
    hserves htarget (by simp [Seen.NotListed])⟩

end QCap.Exchange

import QCap.FaultyExport
import QCap.IssuerCommands
import QCap.PlainExport

/-!
# Revoked tokens at open

Signatures are checked on decoded bytes, revocation on text. A revoked token is refused in
exactly the spellings that the list holds.
-/
namespace QCap.RevokedOpen

open QCap.Text QCap.PathTree QCap.Crypto QCap.Formats QCap.Signatures QCap.Capability
open QCap.Revocation QCap.Identity QCap.Archive QCap.OpenArchive QCap.IssuerCommands
open QCap.FaultyExport hiding openArchive exportPayload openPlain
open QCap.PlainExport

variable (C : Primitives) (J : JsonCodec)

/-- A token with the fields of `cap` and a signature text that decodes to the same bytes. -/
structure SameToken (cap cap' : CapabilityToken) : Prop where
  cap_root : cap'.capRoot = cap.capRoot
  allow : cap'.allow = cap.allow
  expires : cap'.expires = cap.expires
  public_key : cap'.publicKey = cap.publicKey
  signature : ∃ sig : Signature, hexDecode cap.signature = some sig.val ∧
    hexDecode cap'.signature = some sig.val

/-- The list reaches `open_archive` as a file or as the answer of a server. -/
def Supplies (r : OpenRequest) (list : RevocationList) : Prop :=
  (r.revocations = some (.ok list) ∧ r.revocationsUrl = none) ∨
    (r.revocations = none ∧ r.revocationsUrl = some (.ok list))

/-- An error that leaves every file of the output directory as it was. -/
def ExportsNothing (out : Tree) (result : Result Unit × Tree) : Prop :=
  (∃ e, result.1 = .error e) ∧ ∀ p, result.2.read p = out.read p

/-- What the request comes to without its list: another check refuses it, the pattern matches no
file, or the first file that cannot be exported comes after writes that change nothing. -/
def RefusedAnyway (faults : ExportFaults) (r : OpenRequest) (cap : CapabilityToken)
    (out : Tree) : Prop :=
  ∀ report turns, Starts C J faults r cap report turns →
    turns = [] ∨ ∃ writes, FailsAt out turns writes ∧ Held out writes

def previousEntries (r : RevokeRequest) : List RevocationEntry :=
  match r.existing with
  | some (.ok list) => list.revoked
  | _ => []

/-- The text of `cap'` was listed before, or it is the text of `cap` and is listed now. The
second case fails when an entry for another root already holds that text. -/
def Listed (previous : List RevocationEntry) (cap cap' : CapabilityToken) : Prop :=
  (∃ e ∈ previous, e.capabilitySignature = cap'.signature ∧ e.capRoot = cap.capRoot) ∨
    (cap'.signature = cap.signature ∧ ∀ e ∈ previous, e.capabilitySignature ≠ cap.signature)

theorem revocationBase_revoked {r : RevokeRequest} {key : Seed} {base : RevocationList}
    (h : revocationBase C r key = .ok base) : base.revoked = previousEntries r := by
  unfold revocationBase at h
  unfold previousEntries
  split at h
  · rename_i he
    rw [he]
    cases h
    rfl
  · rename_i file he
    simp only [bind_ok, ensure_ok] at h
    obtain ⟨list, hl, _, _, _, _, hb⟩ := h
    rw [he, hl]
    cases hb
    rfl

theorem revokes_revoke {rr : RevokeRequest} {list : RevocationList} {cap cap' : CapabilityToken}
    (h : revoke C J rr = .ok list) (hc : rr.cap = .ok cap) (hroot : cap'.capRoot = cap.capRoot) :
    RevocationList.revokes list cap' = true ↔ Listed (previousEntries rr) cap cap' := by
  obtain ⟨cap₀, key, base, hc₀, -, -, hb, rfl⟩ := revoke_ok C J h
  rw [hc] at hc₀
  cases hc₀
  rw [revokes_iff, sign_revoked, hroot, ← revocationBase_revoked C hb]
  constructor
  · rintro ⟨e, he, hs, hr⟩
    rcases addRevocation_revoked.mp he with he | ⟨rfl, hall⟩
    · exact Or.inl ⟨e, he, hs, hr⟩
    · exact Or.inr ⟨hs.symm, hall⟩
  · rintro (⟨e, he, hs, hr⟩ | ⟨hs, hall⟩)
    · exact ⟨e, addRevocation_revoked.mpr (Or.inl he), hs, hr⟩
    · exact ⟨_, addRevocation_revoked.mpr (Or.inr ⟨rfl, hall⟩), hs.symm, rfl⟩

theorem revoke_trusted (hC : SignatureCorrect C) {rr : RevokeRequest} {list : RevocationList}
    {cap : CapabilityToken} (h : revoke C J rr = .ok list) (hc : rr.cap = .ok cap) :
    RevocationList.verify C list = .ok () ∧ list.publicKey = cap.publicKey := by
  obtain ⟨cap₀, key, base, hc₀, -, hpk, -, rfl⟩ := revoke_ok C J h
  rw [hc] at hc₀
  cases hc₀
  exact ⟨verify_sign C (hC _ _), hpk.symm⟩

theorem loadRevocations_supplied {r : OpenRequest} {list : RevocationList}
    (hv : RevocationList.verify C list = .ok ()) (hs : Supplies r list) :
    loadRevocations C r.revocations r.revocationsUrl = .ok (some list) := by
  rcases hs with ⟨hp, hu⟩ | ⟨hp, hu⟩
  · rw [hp, hu]
    rfl
  · rw [hp, hu]
    simp [loadRevocations, fetchRevocations, hv]

/-- With a trusted list the run passes its checks when the token does and is not listed. -/
theorem authorize_supplied {r : OpenRequest} {list : RevocationList} {cap : CapabilityToken}
    (hv : RevocationList.verify C list = .ok ()) (hpk : list.publicKey = cap.publicKey)
    (hs : Supplies r list) (hc : r.cap = .ok cap) (report : VerifyReport) (identity : Identity)
    (access : Access) :
    authorize C J r = .ok (report, identity, access) ↔
      Authorizes C J r cap report identity access ∧ RevocationList.revokes list cap = false := by
  rw [authorize_ok, loadRevocations_supplied C hv hs]
  constructor
  · rintro ⟨cap₀, revs, hc₀, ha, hl, hr⟩
    rw [hc] at hc₀
    cases hc₀
    cases hl
    simp only [checkRevocations, bind_ok, ensure_ok] at hr
    obtain ⟨_, _, _, _, hr⟩ := hr
    exact ⟨ha, hr⟩
  · rintro ⟨ha, hr⟩
    refine ⟨cap, some list, hc, ha, rfl, ?_⟩
    simp only [checkRevocations, bind_ok, ensure_ok]
    exact ⟨(), hv, (), hpk.trans ha.signer, hr⟩

theorem unrevoked_supplied {r : OpenRequest} {list : RevocationList} {cap : CapabilityToken}
    {report : VerifyReport} (hv : RevocationList.verify C list = .ok ())
    (hpk : list.publicKey = report.signature.publicKey) (hs : Supplies r list) :
    Unrevoked C r cap report ↔ RevocationList.revokes list cap = false := by
  unfold Unrevoked
  rw [loadRevocations_supplied C hv hs]
  constructor
  · rintro ⟨revocations, hl, hr⟩
    cases hl
    simp only [checkRevocations, bind_ok, ensure_ok] at hr
    obtain ⟨_, _, _, _, hr⟩ := hr
    exact hr
  · intro hr
    refine ⟨some list, rfl, ?_⟩
    simp only [checkRevocations, bind_ok, ensure_ok]
    exact ⟨(), hv, (), hpk, hr⟩

/-- With the list of a `revoke` run, `open_archive` refuses a spelling of the revoked token and
exports nothing exactly when the spelling is listed or the request fails without the list. -/
theorem revoked_token_refused_iff (hC : SignatureCorrect C) {rr : RevokeRequest}
    {list : RevocationList} {cap cap' : CapabilityToken} (h : revoke C J rr = .ok list)
    (hc : rr.cap = .ok cap) (hsame : SameToken cap cap') {r : OpenRequest}
    (hr : r.cap = .ok cap') (hs : Supplies r list) (faults : ExportFaults) (out : Tree) :
    ExportsNothing out (FaultyExport.openArchive C J faults r out) ↔
      Listed (previousEntries rr) cap cap' ∨ RefusedAnyway C J faults r cap' out := by
  obtain ⟨hlv, hlk⟩ := revoke_trusted C J hC h hc
  rw [← hsame.public_key] at hlk
  rw [← revokes_revoke C J h hc hsame.cap_root]
  have hunrevoked : ∀ report turns, Starts C J faults r cap' report turns →
      (Unrevoked C r cap' report ↔ RevocationList.revokes list cap' = false) :=
    fun report turns hstarts => unrevoked_supplied C hlv (hlk.trans hstarts.signer) hs
  by_cases hstarts : ∃ report turns, Starts C J faults r cap' report turns ∧
      Unrevoked C r cap' report
  · obtain ⟨report, turns, hst, hu⟩ := hstarts
    have hrev := (hunrevoked report turns hst).mp hu
    rw [hst.run hr hu out, ExportsNothing, requireExport_stopped, hrev]
    constructor
    · intro hstop
      right
      intro report' turns' hst'
      have hu' := (hunrevoked report' turns' hst').mpr hrev
      have hrun := (hst.run hr hu out).symm.trans (hst'.run hr hu' out)
      rw [← requireExport_stopped, ← hrun, requireExport_stopped]
      exact hstop
    · rintro (hlisted | hanyway)
      · cases hlisted
      · exact hanyway report turns hst
  · have hrefused : ∀ cap₀ report turns, r.cap = .ok cap₀ →
        Starts C J faults r cap₀ report turns → ¬ Unrevoked C r cap₀ report := by
      intro cap₀ report turns hcap hst hu
      cases hr.symm.trans hcap
      exact hstarts ⟨report, turns, hst, hu⟩
    obtain ⟨e, he⟩ := openArchive_refused hrefused out
    rw [he]
    refine iff_of_true ⟨⟨e, rfl⟩, fun _ => rfl⟩ ?_
    cases hrev : RevocationList.revokes list cap' with
    | true => exact .inl rfl
    | false =>
      right
      intro report turns hst
      exact absurd ⟨report, turns, hst, (hunrevoked report turns hst).mpr hrev⟩ hstarts

def fileToken : CapabilityToken :=
  CapabilityToken.grant toy (plainManifest toy twoFiles).merkleRoot
    (allowSpec "read" "a" "ab00000000000000") "unix-seconds:1800000000" signerKey

def respelledToken : CapabilityToken :=
  { fileToken with signature := String.ofList (fileToken.signature.toList.map Char.toUpper) }

def revokeFileToken : RevokeRequest where
  cap := .ok fileToken
  issuer := .ok issuerFile
  passphrase := noPassphrase
  existing := none
  now := 1750000000
  reason := "lost"

def fileTokenList : RevocationList :=
  RevocationList.sign toy (addRevocation (RevocationList.empty toy signerKey)
    (revocationEntry fileToken 1750000000 "lost")) signerKey

def openWith (cap : CapabilityToken) : OpenRequest where
  file := plainArchive toy twoFiles
  cap := .ok cap
  identity := .ok issuerFile
  revocations := some (.ok fileTokenList)
  revocationsUrl := none
  passphrase := noPassphrase
  now := 1760000000
  createOut := .ok ()

theorem revoke_fileToken :
    revoke toy (plainCodec toy twoFiles) revokeFileToken = .ok fileTokenList :=
  revoke_new toy (plainCodec toy twoFiles) rfl (verify_grant toy (toy_signatureCorrect _ _)) rfl
    (issuerKey_legacy toy (plainCodec toy twoFiles) _ _ _ _) rfl rfl

theorem hexDecode_fileToken : hexDecode fileToken.signature = some (toy.sign signerKey
    (asBytes (grantPayload fileToken.capRoot fileToken.allow fileToken.expires))).val :=
  hexDecode_hexEncode _

theorem respelledToken_same : SameToken fileToken respelledToken where
  cap_root := rfl
  allow := rfl
  expires := rfl
  public_key := rfl
  signature := ⟨_, hexDecode_fileToken, hexDecode_toUpper _⟩

theorem respelledToken_verify : CapabilityToken.verify toy respelledToken = .ok () := by
  have hv : CapabilityToken.verify toy fileToken = .ok () :=
    verify_grant toy (toy_signatureCorrect _ _)
  have h := (CapabilityToken.verify_ok toy).mp hv
  refine (CapabilityToken.verify_ok toy).mpr ⟨rfl, ?_⟩
  refine (verifyDetached_congr toy ?_).mp h.2
  exact (hexDecode_hexEncode _).trans (hexDecode_toUpper _).symm

theorem respelledToken_unlisted :
    RevocationList.revokes fileTokenList respelledToken = false := by
  have hne : fileToken.signature ≠ respelledToken.signature := by
    intro h
    have hh := congrArg (fun s => s.toList.head?) h
    revert hh
    decide +kernel
  rw [← Bool.not_eq_true, revokes_iff]
  rintro ⟨e, he, hs, -⟩
  rw [List.mem_singleton.mp he] at hs
  exact hne hs

theorem respelledToken_authorized :
    Authorizes toy (plainCodec toy twoFiles) (openWith respelledToken) respelledToken
      (plainReport toy twoFiles 2) issuerFile readA where
  verified := (verifyArchive_ok _ _).mpr ⟨_, _, twoFiles_verified toy (toy_signatureCorrect _ _)⟩
  identity_read := rfl
  cap_verified := respelledToken_verify
  signer := rfl
  accessible := ⟨(parse_allowSpec_ok (by decide) (by decide) (by decide)).mpr ⟨by decide, rfl⟩,
    rfl, rfl, by decide, by decide⟩

theorem listed_token_refused :
    ExportsNothing Tree.empty
        (FaultyExport.openArchive toy (plainCodec toy twoFiles) .none (openWith fileToken)
          Tree.empty) ↔
      Listed (previousEntries revokeFileToken) fileToken fileToken ∨
        RefusedAnyway toy (plainCodec toy twoFiles) .none (openWith fileToken) fileToken
          Tree.empty :=
  revoked_token_refused_iff toy (plainCodec toy twoFiles) toy_signatureCorrect revoke_fileToken rfl
    ⟨rfl, rfl, rfl, rfl, _, hexDecode_fileToken, hexDecode_fileToken⟩ rfl (Or.inl ⟨rfl, rfl⟩)
    .none _

/-- The uppercase spelling of a revoked token verifies and exports its file. -/
theorem respelled_token_opens :
    revoke toy (plainCodec toy twoFiles) revokeFileToken = .ok fileTokenList ∧
      revokeFileToken.cap = .ok fileToken ∧ SameToken fileToken respelledToken ∧
      CapabilityToken.verify toy respelledToken = .ok () ∧
      Supplies (openWith respelledToken) fileTokenList ∧
      ¬ ExportsNothing Tree.empty
        (FaultyExport.openArchive toy (plainCodec toy twoFiles) .none (openWith respelledToken)
          Tree.empty) := by
  refine ⟨revoke_fileToken, rfl, respelledToken_same, respelledToken_verify, Or.inl ⟨rfl, rfl⟩, ?_⟩
  have ha := (authorize_supplied toy (plainCodec toy twoFiles)
    (revoke_trusted toy _ toy_signatureCorrect revoke_fileToken rfl).1 rfl (Or.inl ⟨rfl, rfl⟩) rfl
    (plainReport toy twoFiles 2) issuerFile readA).mpr
    ⟨respelledToken_authorized, respelledToken_unlisted⟩
  have hx : (openPlain (plainArchive toy twoFiles) readA Tree.empty).1 = .ok () := by decide
  rintro ⟨⟨e, he⟩, -⟩
  rw [openArchive_none, openArchive, ha] at he
  exact absurd (hx.symm.trans he) (by simp)

end QCap.RevokedOpen

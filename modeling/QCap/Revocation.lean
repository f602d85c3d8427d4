import QCap.Capability

/-!
# Revocation lists

The issuer signs the schema version and one line per revoked token. Nothing is escaped, so
the signed text determines the list only as far as its fields avoid the delimiters.
-/
namespace QCap.Revocation

open QCap.Text QCap.Crypto QCap.Formats QCap.Signatures

variable (C : Primitives)

def entryLine (entry : RevocationEntry) : String :=
  entry.capRoot ++ "|" ++ entry.capabilitySignature ++ "|" ++ entry.revokedAt ++ "|" ++
    entry.reason

def RevocationList.signingPayload (list : RevocationList) : String :=
  joinWith '\n' (("schema_version=" ++ list.schemaVersion) :: list.revoked.map entryLine)

def RevocationList.sign (list : RevocationList) (key : Seed) : RevocationList :=
  { list with
    publicKey := hexEncode (C.verifyingKey key).val
    algorithm := "ed25519"
    signature := hexEncode
      (C.sign key (asBytes (RevocationList.signingPayload list))).val }

def RevocationList.empty (key : Seed) : RevocationList :=
  RevocationList.sign C
    { schemaVersion := "0.1.0"
      revoked := []
      signature := ""
      publicKey := hexEncode (C.verifyingKey key).val
      algorithm := "ed25519" } key

def listErrors : VerifyErrors :=
  ⟨"bad revocation public key", "bad revocation signature",
    "revocation list signature verify failed"⟩

def RevocationList.verify (list : RevocationList) : Result Unit :=
  if list.algorithm ≠ "ed25519" then
    .error (.message "unsupported revocation list algorithm")
  else verifyDetached C listErrors list.publicKey list.signature
    (asBytes (RevocationList.signingPayload list))

/-- `RevocationList::revokes`: both texts must be equal. -/
def RevocationList.revokes (list : RevocationList) (cap : CapabilityToken) : Bool :=
  list.revoked.any fun entry =>
    entry.capabilitySignature = cap.signature && entry.capRoot = cap.capRoot

@[simp] theorem sign_revoked (list : RevocationList) (key : Seed) :
    (RevocationList.sign C list key).revoked = list.revoked := rfl

@[simp] theorem signingPayload_sign (list : RevocationList) (key : Seed) :
    RevocationList.signingPayload (RevocationList.sign C list key) =
      RevocationList.signingPayload list := rfl

theorem RevocationList.verify_ok {list : RevocationList} :
    RevocationList.verify C list = .ok () ↔ list.algorithm = "ed25519" ∧
      verifyDetached C listErrors list.publicKey list.signature
        (asBytes (RevocationList.signingPayload list)) = .ok () := by
  unfold RevocationList.verify
  by_cases h : list.algorithm = "ed25519" <;> simp [h]

theorem verify_sign {list : RevocationList} {key : Seed}
    (h : SignsCorrectly C key (asBytes (RevocationList.signingPayload list))) :
    RevocationList.verify C (RevocationList.sign C list key) = .ok () :=
  (RevocationList.verify_ok C).mpr ⟨rfl, verifyDetached_sign C h _⟩

theorem revokes_iff {list : RevocationList} {cap : CapabilityToken} :
    RevocationList.revokes list cap = true ↔ ∃ entry ∈ list.revoked,
      entry.capabilitySignature = cap.signature ∧ entry.capRoot = cap.capRoot := by
  simp [RevocationList.revokes]

def revokedPair (entry : RevocationEntry) : String × String :=
  (entry.capRoot, entry.capabilitySignature)

theorem revokes_congr {list list' : RevocationList}
    (h : list.revoked.map revokedPair = list'.revoked.map revokedPair) (cap : CapabilityToken) :
    RevocationList.revokes list cap = RevocationList.revokes list' cap := by
  have hany : ∀ l : RevocationList, RevocationList.revokes l cap =
      (l.revoked.map revokedPair).any fun p => p.2 = cap.signature && p.1 = cap.capRoot := by
    intro l
    rw [List.any_map]
    rfl
  rw [hany, hany, h]

/-- No field that precedes a delimiter holds it: a weaker demand than the format makes of
producers, which bars all delimiters from all values. -/
structure Unambiguous (list : RevocationList) : Prop where
  schema_version : Free '\n' list.schemaVersion
  matched : ∀ entry ∈ list.revoked, Free '|' entry.capRoot ∧ Free '|' entry.capabilitySignature
  trailing : ∀ entry ∈ list.revoked, Free '\n' entry.revokedAt ∧ Free '\n' entry.reason

def entryLines (entries : List RevocationEntry) : List Char :=
  entries.flatMap fun entry => '\n' :: (entryLine entry).toList

theorem entryLines_headed (entries : List RevocationEntry) :
    entryLines entries = [] ∨ ∃ rest, entryLines entries = '\n' :: rest := by
  cases entries with
  | nil => exact Or.inl rfl
  | cons entry entries => exact Or.inr ⟨_, rfl⟩

theorem entryLines_cons (entry : RevocationEntry) (entries : List RevocationEntry) :
    entryLines (entry :: entries) =
      '\n' :: (entry.capRoot.toList ++ '|' :: (entry.capabilitySignature.toList ++ '|' ::
        ((entry.revokedAt.toList ++ '|' :: entry.reason.toList) ++ entryLines entries))) := by
  have hbar : ("|" : String).toList = ['|'] := by decide
  simp [entryLines, entryLine, String.toList_append, hbar]

theorem toList_signingPayload (list : RevocationList) :
    (RevocationList.signingPayload list).toList =
      ("schema_version=" ++ list.schemaVersion).toList ++ entryLines list.revoked := by
  rw [RevocationList.signingPayload, toList_joinWith_cons, List.flatMap_map]
  rfl

/-- Line by line: the two matched fields end at the first two bars, and the rest of the
entry at the next line feed. -/
theorem entryLines_injective {es fs : List RevocationEntry}
    (he : ∀ e ∈ es, Free '|' e.capRoot ∧ Free '|' e.capabilitySignature)
    (hf : ∀ e ∈ fs, Free '|' e.capRoot ∧ Free '|' e.capabilitySignature)
    (he' : ∀ e ∈ es, Free '\n' e.revokedAt ∧ Free '\n' e.reason)
    (hf' : ∀ e ∈ fs, Free '\n' e.revokedAt ∧ Free '\n' e.reason)
    (h : entryLines es = entryLines fs) : es.map revokedPair = fs.map revokedPair := by
  induction es generalizing fs with
  | nil =>
    cases fs with
    | nil => rfl
    | cons f fs => simp [entryLines] at h
  | cons e es ih =>
    cases fs with
    | nil => simp [entryLines] at h
    | cons f fs =>
      rw [entryLines_cons, entryLines_cons] at h
      have hl := (List.cons.inj h).2
      obtain ⟨hroot, hl⟩ := cons_split_unique (he e (by simp)).1 (hf f (by simp)).1 hl
      obtain ⟨hsig, hl⟩ := cons_split_unique (he e (by simp)).2 (hf f (by simp)).2 hl
      have htail : ∀ g : RevocationEntry, Free '\n' g.revokedAt ∧ Free '\n' g.reason →
          '\n' ∉ g.revokedAt.toList ++ '|' :: g.reason.toList := by
        rintro g ⟨ha, hr⟩
        simp only [List.mem_append, List.mem_cons, not_or]
        exact ⟨ha, by decide, hr⟩
      obtain ⟨-, hrest⟩ := headed_split_unique (htail e (he' e (by simp)))
        (htail f (hf' f (by simp))) (entryLines_headed es) (entryLines_headed fs) hl
      rw [List.map_cons, List.map_cons, ih (fun g hg => he g (by simp [hg]))
        (fun g hg => hf g (by simp [hg])) (fun g hg => he' g (by simp [hg]))
        (fun g hg => hf' g (by simp [hg])) hrest, revokedPair, revokedPair,
        String.toList_inj.mp hroot, String.toList_inj.mp hsig]

theorem signingPayload_determines {list list' : RevocationList} (hl : Unambiguous list)
    (hl' : Unambiguous list')
    (h : RevocationList.signingPayload list = RevocationList.signingPayload list') :
    list.revoked.map revokedPair = list'.revoked.map revokedPair := by
  have hs : ∀ l : RevocationList, Unambiguous l →
      '\n' ∉ ("schema_version=" ++ l.schemaVersion).toList := fun l hu =>
    free_append.mpr ⟨by decide, hu.schema_version⟩
  have ht := congrArg String.toList h
  rw [toList_signingPayload, toList_signingPayload] at ht
  obtain ⟨-, he⟩ := headed_split_unique (hs list hl) (hs list' hl') (entryLines_headed _)
    (entryLines_headed _) ht
  exact entryLines_injective hl.matched hl'.matched hl.trailing hl'.trailing he

/-- Two verifying lists under one signature revoke the same tokens. -/
theorem signed_list_keeps_revocations (list list' : RevocationList)
    (hpk : list.publicKey = list'.publicKey) (hsig : list.signature = list'.signature)
    (hv : RevocationList.verify C list = .ok ()) (hv' : RevocationList.verify C list' = .ok ())
    (hbind : ∀ pk, SignatureBinding C pk [asBytes (RevocationList.signingPayload list),
      asBytes (RevocationList.signingPayload list')])
    (hl : Unambiguous list) (hl' : Unambiguous list') (cap : CapabilityToken) :
    RevocationList.revokes list cap = RevocationList.revokes list' cap := by
  obtain ⟨-, hv⟩ := (RevocationList.verify_ok C).mp hv
  obtain ⟨-, hv'⟩ := (RevocationList.verify_ok C).mp hv'
  obtain ⟨pk, sig, hk, hs, -, hver⟩ := (verifyDetached_ok C).mp hv
  obtain ⟨pk', sig', hk', hs', -, hver'⟩ := (verifyDetached_ok C).mp hv'
  have hpk' : pk' = pk := Subtype.ext (Option.some.inj (hk'.symm.trans (hpk ▸ hk)))
  have hsig' : sig' = sig := Subtype.ext (Option.some.inj (hs'.symm.trans (hsig ▸ hs)))
  subst hpk' hsig'
  have hm := hbind pk' _ (by simp) _ (by simp) sig' hver hver'
  exact revokes_congr (signingPayload_determines hl hl' (asBytes_injective hm)) cap

def exampleKey : Seed := pad 32 [7]

def exampleToken : CapabilityToken :=
  Capability.CapabilityToken.grant toy "blake3:00" "read;path=*;aud=07" "unix-seconds:9" exampleKey

def exampleEntry (revokedAt reason : String) : RevocationEntry :=
  ⟨exampleToken.capRoot, exampleToken.signature, revokedAt, reason⟩

def exampleList (schemaVersion : String) (revoked : List RevocationEntry) : RevocationList :=
  RevocationList.sign toy ⟨schemaVersion, revoked, "", "", ""⟩ exampleKey

theorem exampleList_verify (v : String) (es : List RevocationEntry) :
    RevocationList.verify toy (exampleList v es) = .ok () :=
  verify_sign toy (toy_signatureCorrect _ _)

theorem exampleEntry_free : Free '|' exampleToken.capRoot ∧ Free '|' exampleToken.signature :=
  ⟨by decide, hexEncode_free (by decide) _⟩

theorem exampleList_unambiguous (v a r : String) (hv : Free '\n' v) (ha : Free '\n' a)
    (hr : Free '\n' r) : Unambiguous (exampleList v [exampleEntry a r]) where
  schema_version := hv
  matched := by
    intro entry he
    rw [List.mem_singleton.mp he]
    exact exampleEntry_free
  trailing := by
    intro entry he
    rw [List.mem_singleton.mp he]
    exact ⟨ha, hr⟩

theorem exampleList_signature {v v' : String} {es es' : List RevocationEntry}
    (h : RevocationList.signingPayload (exampleList v es) =
      RevocationList.signingPayload (exampleList v' es')) :
    (exampleList v es).signature = (exampleList v' es').signature :=
  congrArg (fun p => hexEncode (toy.sign exampleKey (asBytes p)).val) h

/-- A bar moved between time and reason changes nothing. -/
theorem signed_list_keeps_example_token :
    RevocationList.revokes (exampleList "0.1.0" [exampleEntry "9|" "lost"]) exampleToken =
      RevocationList.revokes (exampleList "0.1.0" [exampleEntry "9" "|lost"]) exampleToken := by
  have hp : RevocationList.signingPayload (exampleList "0.1.0" [exampleEntry "9|" "lost"]) =
      RevocationList.signingPayload (exampleList "0.1.0" [exampleEntry "9" "|lost"]) := by
    have h : entryLine (exampleEntry "9|" "lost") = entryLine (exampleEntry "9" "|lost") := by
      simp only [entryLine, exampleEntry, String.append_assoc]
      rfl
    simp only [RevocationList.signingPayload, exampleList, sign_revoked, List.map_cons, h]
    rfl
  apply signed_list_keeps_revocations toy (exampleList "0.1.0" [exampleEntry "9|" "lost"])
    (exampleList "0.1.0" [exampleEntry "9" "|lost"]) rfl (exampleList_signature hp)
    (exampleList_verify _ _) (exampleList_verify _ _)
    (fun _ => SignatureBinding.of_eq toy (congrArg asBytes hp))
    (exampleList_unambiguous _ _ _ (by decide) (by decide) (by decide))
    (exampleList_unambiguous _ _ _ (by decide) (by decide) (by decide))

/-- The only entry of a signed list moved into its schema version: the signature still
verifies and the token is no longer revoked. -/
theorem reshaped_list_drops_revocation :
    let signed := exampleList "0.1.0" [exampleEntry "9" "lost"]
    let reshaped := { signed with
      schemaVersion := "0.1.0\n" ++ entryLine (exampleEntry "9" "lost"), revoked := [] }
    RevocationList.verify toy signed = .ok () ∧ RevocationList.verify toy reshaped = .ok () ∧
      (∀ pk, SignatureBinding toy pk [asBytes (RevocationList.signingPayload signed),
        asBytes (RevocationList.signingPayload reshaped)]) ∧
      Capability.CapabilityToken.verify toy exampleToken = .ok () ∧
      RevocationList.revokes signed exampleToken = true ∧
      RevocationList.revokes reshaped exampleToken = false := by
  intro signed reshaped
  have hp : RevocationList.signingPayload reshaped = RevocationList.signingPayload signed := by
    have hv : "0.1.0\n" = "0.1.0" ++ String.singleton '\n' := by decide
    simp only [RevocationList.signingPayload, signed, reshaped, exampleList, sign_revoked,
      List.map_cons, List.map_nil, joinWith_cons_cons, joinWith_singleton, hv,
      String.append_assoc]
    rfl
  have hsign : RevocationList.verify toy signed = .ok () := exampleList_verify _ _
  refine ⟨hsign, ?_, fun _ => SignatureBinding.of_eq toy (congrArg asBytes hp.symm),
    Capability.verify_grant toy (toy_signatureCorrect _ _), ?_, rfl⟩
  · rw [RevocationList.verify_ok] at hsign ⊢
    refine ⟨rfl, ?_⟩
    rw [hp]
    exact hsign.2
  · exact revokes_iff.mpr ⟨exampleEntry "9" "lost", List.mem_singleton.mpr rfl, rfl, rfl⟩

end QCap.Revocation

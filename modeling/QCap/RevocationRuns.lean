import QCap.IssuerCommands
import QCap.SerdeDocuments

/-!
# Runs of `revoke` on one file

Each call reads the list that the one before it wrote, extends it and signs it again. The
check for an entry that is already there looks at the signature alone, and one signature
covers every split of `root|allow|expires`, so a token can be taken for another one.
-/
namespace QCap.RevocationRuns

open QCap.Text QCap.Crypto QCap.Formats QCap.Signatures QCap.Capability QCap.Revocation
open QCap.Identity QCap.IssuerCommands

/-- `serde_json` at revocation lists. -/
structure ListCodec where
  write : RevocationList → Bytes
  read : Bytes → Option RevocationList

def ListCodec.ReadsBack (L : ListCodec) : Prop := ∀ list, L.read (L.write list) = some list

variable (C : Primitives) (J : JsonCodec) (L : ListCodec)

structure RevokeCall where
  cap : Result CapabilityToken
  issuer : Result Identity
  passphrase : PassphraseSource
  now : ℕ
  reason : String

def RevokeCall.request (call : RevokeCall) (out : Option Bytes) : RevokeRequest where
  cap := call.cap
  issuer := call.issuer
  passphrase := call.passphrase
  existing := out.map fun document => okOr (L.read document) .json
  now := call.now
  reason := call.reason

/-- `revoke`, from the contents of the output file to the new ones. -/
def revokeFile (call : RevokeCall) (out : Option Bytes) : Result Bytes := do
  let list ← revoke C J (call.request L out)
  return L.write list

def IssuedBy (key : Seed) (call : RevokeCall) : Prop :=
  ∃ issuer, call.issuer = .ok issuer ∧ issuerKey C J issuer call.passphrase = .ok key

abbrev Turns := List (RevokeCall × Bytes)

def contents (start : Option Bytes) : Turns → Option Bytes
  | [] => start
  | (_, document) :: _ => some document

/-- Successful calls by one issuer on a file that held `start`, or was missing. -/
inductive Run (key : Seed) (start : Option Bytes) : Turns → Prop where
  | start : Run key start []
  | call {turns : Turns} {call : RevokeCall} {document : Bytes} : Run key start turns →
      IssuedBy C J key call → revokeFile C J L call (contents start turns) = .ok document →
      Run key start ((call, document) :: turns)

def entriesIn (out : Option Bytes) : List RevocationEntry :=
  ((out.bind L.read).map RevocationList.revoked).getD []

def signatures (entries : List RevocationEntry) : List String :=
  entries.map RevocationEntry.capabilitySignature

structure HistoryKept (key : Seed) (start : Option Bytes) (turns : Turns)
    (list : RevocationList) : Prop where
  verified : RevocationList.verify C list = .ok ()
  issuer : list.publicKey = hexEncode (C.verifyingKey key).val
  entries_kept : ∀ out ∈ start :: turns.map fun turn => some turn.2,
    entriesIn L out <+: list.revoked
  distinct : (signatures list.revoked).Nodup
  tokens_revoked : ∀ turn ∈ turns, ∀ cap, turn.1.cap = .ok cap →
    RevocationList.revokes list cap = true

def KeptAfterEach (key : Seed) (start : Option Bytes) : Turns → Prop
  | [] => True
  | turn :: turns =>
    (∃ list, L.read turn.2 = some list ∧ HistoryKept C L key start (turn :: turns) list) ∧
      KeptAfterEach key start turns

/-- The list found has no signature twice, and only entries of the token's root under the
token's signature. -/
def TellsApart (out : Option Bytes) (call : RevokeCall) : Prop :=
  (signatures (entriesIn L out)).Nodup ∧ ∀ cap, call.cap = .ok cap →
    ∀ entry ∈ entriesIn L out, entry.capabilitySignature = cap.signature →
      entry.capRoot = cap.capRoot

def EachTellsApart (start : Option Bytes) : Turns → Prop
  | [] => True
  | turn :: turns => TellsApart L (contents start turns) turn.1 ∧ EachTellsApart start turns

/-- What a run has to do with: no signature stands twice in the list at the start, and a text of
a signature stands for one root, there and in the tokens. -/
structure TokensApart (start : Option Bytes) (turns : Turns) : Prop where
  distinct : turns ≠ [] → (signatures (entriesIn L start)).Nodup
  listed : ∀ turn ∈ turns, ∀ cap, turn.1.cap = .ok cap →
    ∀ entry ∈ entriesIn L start, entry.capabilitySignature = cap.signature →
      entry.capRoot = cap.capRoot
  tokens : ∀ turn ∈ turns, ∀ turn' ∈ turns, ∀ cap cap', turn.1.cap = .ok cap →
    turn'.1.cap = .ok cap' → cap'.signature = cap.signature → cap'.capRoot = cap.capRoot

structure Extends (key : Seed) (call : RevokeCall) (before : List RevocationEntry)
    (cap : CapabilityToken) (list : RevocationList) : Prop where
  token : call.cap = .ok cap
  verified : RevocationList.verify C list = .ok ()
  issuer : list.publicKey = hexEncode (C.verifyingKey key).val
  revoked : list.revoked =
    if cap.signature ∈ signatures before then before
    else before ++ [revocationEntry cap call.now call.reason]

theorem addRevocation_eq (list : RevocationList) (entry : RevocationEntry) :
    (addRevocation list entry).revoked =
      if entry.capabilitySignature ∈ signatures list.revoked then list.revoked
      else list.revoked ++ [entry] := by
  have h : (list.revoked.any fun e => e.capabilitySignature = entry.capabilitySignature) =
      decide (entry.capabilitySignature ∈ signatures list.revoked) := by
    rw [Bool.eq_iff_iff]
    simp [signatures]
  rw [addRevocation, h]
  by_cases hm : entry.capabilitySignature ∈ signatures list.revoked <;> simp [hm]

theorem revocationBase_entries {call : RevokeCall} {out : Option Bytes} {key : Seed}
    {base : RevocationList} (h : revocationBase C (call.request L out) key = .ok base) :
    entriesIn L out = base.revoked := by
  cases out with
  | none =>
    cases h
    rfl
  | some document =>
    simp only [revocationBase, RevokeCall.request, Option.map_some, bind_ok, okOr_ok] at h
    obtain ⟨list, hread, _, _, _, _, he⟩ := h
    cases he
    simp [entriesIn, hread]

theorem revokeFile_ok (hC : SignatureCorrect C) (hL : L.ReadsBack) {key : Seed}
    {call : RevokeCall} {out : Option Bytes} {document : Bytes} (hi : IssuedBy C J key call)
    (h : revokeFile C J L call out = .ok document) :
    ∃ list cap, L.read document = some list ∧ Extends C key call (entriesIn L out) cap list := by
  obtain ⟨issuer, hissuer, hkey⟩ := hi
  simp only [revokeFile, revoke, revocationUpdate, bind_ok, ensure_ok] at h
  obtain ⟨list, ⟨⟨l, k⟩, ⟨cap, hc, _, hv, issuer', hissuer', k', hk', _, hs, base, hb, he⟩, hl⟩,
    hd⟩ := h
  cases he
  cases hl
  cases hd
  have hi : issuer = issuer' := Except.ok.inj (hissuer.symm.trans hissuer')
  have hk : key = k := Except.ok.inj (hkey.symm.trans (hi ▸ hk'))
  subst hk
  refine ⟨_, cap, hL _, hc, verify_sign C (hC _ _), rfl, ?_⟩
  rw [sign_revoked, addRevocation_eq, revocationBase_entries C L hb]
  rfl

variable {C L}

theorem Extends.keeps_before {key : Seed} {call : RevokeCall} {before : List RevocationEntry}
    {cap : CapabilityToken} {list : RevocationList} (h : Extends C key call before cap list) :
    before <+: list.revoked := by
  rw [h.revoked]
  split
  · exact List.prefix_refl _
  · exact List.prefix_append _ _

theorem Extends.distinct {key : Seed} {call : RevokeCall} {before : List RevocationEntry}
    {cap : CapabilityToken} {list : RevocationList} (h : Extends C key call before cap list)
    (hb : (signatures before).Nodup) : (signatures list.revoked).Nodup := by
  rw [h.revoked]
  split
  · exact hb
  · rename_i hn
    rw [signatures, List.map_append, List.nodup_append']
    refine ⟨hb, List.nodup_singleton _, ?_⟩
    intro s hs hs'
    have he : s = cap.signature := List.mem_singleton.mp hs'
    exact hn (he ▸ hs)

theorem revokes_prefix {l l' : RevocationList} {cap : CapabilityToken}
    (h : l.revoked <+: l'.revoked) (hr : RevocationList.revokes l cap = true) :
    RevocationList.revokes l' cap = true := by
  obtain ⟨entry, he, hsig⟩ := revokes_iff.mp hr
  exact revokes_iff.mpr ⟨entry, h.subset he, hsig⟩

/-- The token of the call is revoked when the entry that stops it from being added is its
own. -/
theorem Extends.revokes {key : Seed} {call : RevokeCall} {before : List RevocationEntry}
    {cap : CapabilityToken} {list : RevocationList} (h : Extends C key call before cap list)
    (ha : ∀ entry ∈ before, entry.capabilitySignature = cap.signature →
      entry.capRoot = cap.capRoot) : RevocationList.revokes list cap = true := by
  by_cases hm : cap.signature ∈ signatures before
  · obtain ⟨entry, he, hs⟩ := List.mem_map.mp hm
    exact revokes_iff.mpr ⟨entry, h.keeps_before.subset he, hs, ha entry he hs⟩
  · refine revokes_iff.mpr ⟨revocationEntry cap call.now call.reason, ?_, rfl, rfl⟩
    rw [h.revoked, if_neg hm]
    simp

theorem Extends.tells_apart {key : Seed} {call : RevokeCall} {before : List RevocationEntry}
    {cap : CapabilityToken} {list : RevocationList} (h : Extends C key call before cap list)
    (hd : (signatures list.revoked).Nodup) (hr : RevocationList.revokes list cap = true) :
    ∀ entry ∈ before, entry.capabilitySignature = cap.signature →
      entry.capRoot = cap.capRoot := by
  intro entry he hs
  obtain ⟨found, hf, hfs, hfr⟩ := revokes_iff.mp hr
  have hsame : entry = found :=
    List.inj_on_of_nodup_map hd (h.keeps_before.subset he) hf (hs.trans hfs.symm)
  exact hsame ▸ hfr

theorem history_step (turn : RevokeCall × Bytes) {key : Seed} {start : Option Bytes}
    {turns : Turns} {cap : CapabilityToken} {list : RevocationList}
    (hread : L.read turn.2 = some list)
    (he : Extends C key turn.1 (entriesIn L (contents start turns)) cap list)
    (hb : ∀ first rest, turns = first :: rest →
      ∃ l, L.read first.2 = some l ∧ HistoryKept C L key start turns l)
    (ha : TellsApart L (contents start turns) turn.1) :
    HistoryKept C L key start (turn :: turns) list := by
  have hlist : entriesIn L (some turn.2) = list.revoked := by simp [entriesIn, hread]
  have hnew : RevocationList.revokes list cap = true := he.revokes (ha.2 cap he.token)
  have hcap : ∀ c, turn.1.cap = .ok c → RevocationList.revokes list c = true := by
    intro c hc
    rwa [← Except.ok.inj (he.token.symm.trans hc)]
  cases turns with
  | nil =>
    refine ⟨he.verified, he.issuer, ?_, he.distinct ha.1, ?_⟩
    · intro out ho
      simp only [List.map_cons, List.map_nil, List.mem_cons, List.not_mem_nil, or_false] at ho
      rcases ho with rfl | rfl
      · exact he.keeps_before
      · rw [hlist]
    · intro t ht
      exact List.mem_singleton.mp ht ▸ hcap
  | cons first rest =>
    obtain ⟨l, hl, hk⟩ := hb first rest rfl
    have hbefore : entriesIn L (contents start (first :: rest)) = l.revoked := by
      simp [contents, entriesIn, hl]
    have hprefix : l.revoked <+: list.revoked := hbefore ▸ he.keeps_before
    refine ⟨he.verified, he.issuer, ?_, he.distinct ha.1, ?_⟩
    · intro out ho
      rw [List.map_cons, List.mem_cons, List.mem_cons] at ho
      rcases ho with rfl | rfl | ho
      · exact (hk.entries_kept _ (by simp)).trans hprefix
      · rw [hlist]
      · exact (hk.entries_kept out (List.mem_cons_of_mem _ ho)).trans hprefix
    · intro t ht
      rcases List.mem_cons.mp ht with rfl | ht
      · exact hcap
      · exact fun c hc => revokes_prefix hprefix (hk.tokens_revoked t ht c hc)

theorem tellsApart_of_kept (turn : RevokeCall × Bytes) {key : Seed} {start : Option Bytes}
    {turns : Turns} {cap : CapabilityToken} {list : RevocationList}
    (he : Extends C key turn.1 (entriesIn L (contents start turns)) cap list)
    (hk : HistoryKept C L key start (turn :: turns) list) :
    TellsApart L (contents start turns) turn.1 := by
  refine ⟨hk.distinct.sublist (he.keeps_before.sublist.map _), ?_⟩
  intro c hc
  have hsame : cap = c := Except.ok.inj (he.token.symm.trans hc)
  exact hsame ▸ he.tells_apart hk.distinct (hk.tokens_revoked turn (by simp) cap he.token)

theorem kept_iff_eachTellsApart (hC : SignatureCorrect C) (hL : L.ReadsBack) {key : Seed}
    {start : Option Bytes} {turns : Turns} (h : Run C J L key start turns) :
    KeptAfterEach C L key start turns ↔ EachTellsApart L start turns := by
  induction h with
  | start => exact Iff.rfl
  | call hrun hi hf ih =>
    rename_i turns call document
    obtain ⟨list, cap, hread, he⟩ := revokeFile_ok C J L hC hL hi hf
    rw [KeptAfterEach, EachTellsApart, ← ih]
    constructor
    · rintro ⟨⟨l, hl, hk⟩, hrest⟩
      have hsame : l = list := Option.some.inj (hl.symm.trans hread)
      exact ⟨tellsApart_of_kept (call, document) he (hsame ▸ hk), hrest⟩
    · rintro ⟨ha, hrest⟩
      refine ⟨⟨list, hread, history_step (call, document) hread he ?_ ha⟩, hrest⟩
      rintro first rest rfl
      exact hrest.1

/-- The list that a run has come to: the entries of its start, and one for each text of a
signature that a token brought. -/
structure Recorded (L : ListCodec) (start : Option Bytes) (turns : Turns) : Prop where
  start_kept : entriesIn L start <+: entriesIn L (contents start turns)
  origin : ∀ entry ∈ entriesIn L (contents start turns), entry ∈ entriesIn L start ∨
    ∃ turn ∈ turns, ∃ cap, turn.1.cap = .ok cap ∧ entry.capabilitySignature = cap.signature ∧
      entry.capRoot = cap.capRoot
  distinct : (signatures (entriesIn L start)).Nodup →
    (signatures (entriesIn L (contents start turns))).Nodup

theorem Run.recorded (hC : SignatureCorrect C) (hL : L.ReadsBack) {key : Seed}
    {start : Option Bytes} {turns : Turns} (h : Run C J L key start turns) :
    Recorded L start turns := by
  induction h with
  | start => exact ⟨List.prefix_refl _, fun _ he => .inl he, id⟩
  | call hrun hi hf ih =>
    rename_i turns call document
    obtain ⟨list, cap, hread, he⟩ := revokeFile_ok C J L hC hL hi hf
    have hlist : entriesIn L (contents start ((call, document) :: turns)) = list.revoked := by
      simp [contents, entriesIn, hread]
    refine ⟨?_, ?_, ?_⟩
    · rw [hlist]
      exact ih.start_kept.trans he.keeps_before
    · rw [hlist, he.revoked]
      intro entry hentry
      have hmem : entry ∈ entriesIn L (contents start turns) ∨
          entry = revocationEntry cap call.now call.reason := by
        split at hentry
        · exact .inl hentry
        · simpa using hentry
      rcases hmem with hmem | rfl
      · rcases ih.origin entry hmem with hs | ⟨turn, ht, hturn⟩
        · exact .inl hs
        · exact .inr ⟨turn, List.mem_cons_of_mem _ ht, hturn⟩
      · exact .inr ⟨_, List.mem_cons_self, cap, he.token, rfl, rfl⟩
    · rw [hlist]
      exact fun hs => he.distinct (ih.distinct hs)

theorem TokensApart.tail {turn : RevokeCall × Bytes} {start : Option Bytes} {turns : Turns}
    (h : TokensApart L start (turn :: turns)) : TokensApart L start turns where
  distinct _ := h.distinct (List.cons_ne_nil _ _)
  listed t ht := h.listed t (List.mem_cons_of_mem _ ht)
  tokens t ht t' ht' := h.tokens t (List.mem_cons_of_mem _ ht) t' (List.mem_cons_of_mem _ ht')

theorem TokensApart.tellsApart {turn : RevokeCall × Bytes} {start : Option Bytes} {turns : Turns}
    (h : TokensApart L start (turn :: turns)) (hr : Recorded L start turns) :
    TellsApart L (contents start turns) turn.1 := by
  refine ⟨hr.distinct (h.distinct (List.cons_ne_nil _ _)), ?_⟩
  intro cap hc entry hentry hs
  rcases hr.origin entry hentry with hstart | ⟨turn', ht', cap', hc', hs', hroot⟩
  · exact h.listed turn List.mem_cons_self cap hc entry hstart hs
  · rw [hroot]
    exact h.tokens turn List.mem_cons_self turn' (List.mem_cons_of_mem _ ht') cap cap' hc hc'
      (hs'.symm.trans hs)

/-- A token that was revoked before has an entry of its own, which a later one is compared
with. -/
theorem TellsApart.earlier {call : RevokeCall} {key : Seed} {start : Option Bytes}
    {turns : Turns} (h : TellsApart L (contents start turns) call)
    (hk : KeptAfterEach C L key start turns) {turn' : RevokeCall × Bytes} (ht : turn' ∈ turns)
    {cap cap' : CapabilityToken} (hc : call.cap = .ok cap) (hc' : turn'.1.cap = .ok cap')
    (hs : cap'.signature = cap.signature) : cap'.capRoot = cap.capRoot := by
  cases turns with
  | nil => cases ht
  | cons first rest =>
    obtain ⟨⟨list, hread, hkept⟩, -⟩ := hk
    obtain ⟨entry, hentry, hsig, hroot⟩ := revokes_iff.mp (hkept.tokens_revoked turn' ht cap' hc')
    have hlist : entriesIn L (contents start (first :: rest)) = list.revoked := by
      simp [contents, entriesIn, hread]
    rw [← hlist] at hentry
    exact hroot.symm.trans (h.2 cap hc entry hentry (hsig.trans hs))

theorem eachTellsApart_iff (hC : SignatureCorrect C) (hL : L.ReadsBack) {key : Seed}
    {start : Option Bytes} {turns : Turns} (h : Run C J L key start turns) :
    EachTellsApart L start turns ↔ TokensApart L start turns := by
  induction h with
  | start =>
    refine iff_of_true trivial ⟨fun hn => absurd rfl hn, ?_, ?_⟩
    · intro _ ht
      cases ht
    · intro _ ht
      cases ht
  | call hrun hi hf ih =>
    rename_i turns call document
    have hrecorded := hrun.recorded J hC hL
    constructor
    · rintro ⟨ha, hrest⟩
      have hbefore := ih.mp hrest
      have hkept := (kept_iff_eachTellsApart J hC hL hrun).mpr hrest
      refine ⟨fun _ => ha.1.sublist (hrecorded.start_kept.sublist.map _), ?_, ?_⟩
      · intro turn ht cap hc entry hentry hs
        rcases List.mem_cons.mp ht with rfl | ht
        · exact ha.2 cap hc entry (hrecorded.start_kept.subset hentry) hs
        · exact hbefore.listed turn ht cap hc entry hentry hs
      · intro turn ht turn' ht' cap cap' hc hc' hs
        rcases List.mem_cons.mp ht with rfl | ht <;> rcases List.mem_cons.mp ht' with rfl | ht'
        · rw [Except.ok.inj (hc.symm.trans hc')]
        · exact ha.earlier hkept ht' hc hc' hs
        · exact (ha.earlier hkept ht hc' hc hs.symm).symm
        · exact hbefore.tokens turn ht turn' ht' cap cap' hc hc' hs
    · intro hapart
      exact ⟨hapart.tellsApart hrecorded, ih.mpr hapart.tail⟩

/-- The history is kept after each call exactly when the texts of signatures tell the tokens and
the entries found at the start apart. -/
theorem revocation_history_kept_iff (hC : SignatureCorrect C) (hL : L.ReadsBack) {key : Seed}
    {start : Option Bytes} {turns : Turns} (h : Run C J L key start turns) :
    KeptAfterEach C L key start turns ↔ TokensApart L start turns :=
  (kept_iff_eachTellsApart J hC hL h).trans (eachTellsApart_iff J hC hL h)

theorem revokeFile_next {key : Seed} {call : RevokeCall} {cap : CapabilityToken}
    {out : Option Bytes} {base : RevocationList} (hc : call.cap = .ok cap)
    (hv : CapabilityToken.verify C cap = .ok ()) (hi : IssuedBy C J key call)
    (hs : cap.publicKey = hexEncode (C.verifyingKey key).val)
    (hb : revocationBase C (call.request L out) key = .ok base) :
    revokeFile C J L call out = .ok (L.write (RevocationList.sign C
      (addRevocation base (revocationEntry cap call.now call.reason)) key)) := by
  obtain ⟨issuer, hissuer, hkey⟩ := hi
  simp only [revokeFile, revoke, revocationUpdate, bind_ok, ensure_ok]
  exact ⟨_, ⟨_, ⟨cap, hc, (), hv, issuer, hissuer, key, hkey, (), hs, base, hb, rfl⟩, rfl⟩, rfl⟩

def serdeLists : ListCodec := ⟨SerdeDocuments.listBytes, SerdeDocuments.readList⟩

theorem serdeLists_readsBack : serdeLists.ReadsBack := SerdeDocuments.readList_listBytes

def emptyJson : JsonCodec := Json.documentCodec [] [] []

/-- A grant for the name `a|b`, and the same signed text split elsewhere. -/
def barredToken : CapabilityToken :=
  CapabilityToken.grant toy "blake3:00" "read;path=a|b;aud=07" "unix-seconds:9" signerKey

def shiftedToken : CapabilityToken :=
  { barredToken with capRoot := "blake3:00|read;path=a", allow := "b;aud=07" }

theorem barredToken_verify : CapabilityToken.verify toy barredToken = .ok () :=
  verify_grant toy (toy_signatureCorrect _ _)

theorem shiftedToken_verify : CapabilityToken.verify toy shiftedToken = .ok () := by
  have h := barredToken_verify
  rw [CapabilityToken.verify_ok] at h ⊢
  have hp : grantPayload shiftedToken.capRoot shiftedToken.allow shiftedToken.expires =
      grantPayload barredToken.capRoot barredToken.allow barredToken.expires := by decide
  rw [hp]
  exact h

def callFor (cap : CapabilityToken) : RevokeCall :=
  ⟨.ok cap, .ok issuerFile, noPassphrase, 1764955000, "superseded"⟩

def entryFor (cap : CapabilityToken) : RevocationEntry :=
  revocationEntry cap 1764955000 "superseded"

theorem callFor_issued (cap : CapabilityToken) : IssuedBy toy emptyJson signerKey (callFor cap) :=
  ⟨issuerFile, rfl, issuerKey_legacy toy emptyJson _ _ _ _⟩

def firstList (cap : CapabilityToken) : RevocationList :=
  RevocationList.sign toy (addRevocation (RevocationList.empty toy signerKey) (entryFor cap))
    signerKey

def secondList (first second : CapabilityToken) : RevocationList :=
  RevocationList.sign toy (addRevocation (firstList first) (entryFor second)) signerKey

def twoTurns (first second : CapabilityToken) : Turns :=
  [(callFor second, serdeLists.write (secondList first second)),
    (callFor first, serdeLists.write (firstList first))]

theorem twoTurns_run {first second : CapabilityToken}
    (hf : CapabilityToken.verify toy first = .ok ())
    (hs : CapabilityToken.verify toy second = .ok ())
    (hfk : first.publicKey = hexEncode (toy.verifyingKey signerKey).val)
    (hsk : second.publicKey = hexEncode (toy.verifyingKey signerKey).val) :
    Run toy emptyJson serdeLists signerKey none (twoTurns first second) := by
  refine .call (.call .start (callFor_issued first) ?_) (callFor_issued second) ?_
  · exact revokeFile_next emptyJson rfl hf (callFor_issued first) hfk rfl
  · apply revokeFile_next emptyJson rfl hs (callFor_issued second) hsk
    simp only [revocationBase, RevokeCall.request, contents, Option.map_some, bind_ok, okOr_ok,
      ensure_ok]
    exact ⟨firstList first, serdeLists_readsBack _, (), verify_sign toy (toy_signatureCorrect _ _),
      (), rfl, rfl⟩

theorem firstList_revoked (cap : CapabilityToken) : (firstList cap).revoked = [entryFor cap] :=
  rfl

/-- Two grants of one archive. -/
theorem two_grants_kept :
    KeptAfterEach toy serdeLists signerKey none (twoTurns barredToken
      (CapabilityToken.grant toy "blake3:00" "read;path=*;aud=07" "unix-seconds:9" signerKey)) := by
  refine (revocation_history_kept_iff emptyJson toy_signatureCorrect serdeLists_readsBack
    (twoTurns_run barredToken_verify (verify_grant toy (toy_signatureCorrect _ _)) rfl rfl)).mpr ?_
  have hroots : ∀ turn ∈ twoTurns barredToken
      (CapabilityToken.grant toy "blake3:00" "read;path=*;aud=07" "unix-seconds:9" signerKey),
      ∀ cap, turn.1.cap = .ok cap → cap.capRoot = "blake3:00" := by
    intro turn ht cap hc
    rcases List.mem_pair.mp ht with rfl | rfl
    · cases hc
      rfl
    · cases hc
      rfl
  refine ⟨fun _ => List.nodup_nil, ?_, ?_⟩
  · intro _ _ _ _ entry he
    cases he
  intro turn ht turn' ht' cap cap' hc hc' _
  rw [hroots turn ht cap hc, hroots turn' ht' cap' hc']

/-- The shifted token is revoked first; the call for the granted one then succeeds without an
entry for it. -/
theorem shifted_token_hides_grant :
    Run toy emptyJson serdeLists signerKey none (twoTurns shiftedToken barredToken) ∧
      ¬ KeptAfterEach toy serdeLists signerKey none (twoTurns shiftedToken barredToken) := by
  refine ⟨twoTurns_run shiftedToken_verify barredToken_verify rfl rfl, ?_⟩
  rintro ⟨⟨list, hread, hk⟩, -⟩
  have hlist : secondList shiftedToken barredToken = list :=
    Option.some.inj ((serdeLists_readsBack _).symm.trans hread)
  have hsame : (entryFor barredToken).capabilitySignature ∈
      signatures (firstList shiftedToken).revoked := by
    rw [firstList_revoked]
    exact List.mem_singleton.mpr rfl
  have hrevoked : list.revoked = [entryFor shiftedToken] := by
    rw [← hlist, secondList, sign_revoked, addRevocation_eq, if_pos hsame, firstList_revoked]
  obtain ⟨entry, he, -, hroot⟩ := revokes_iff.mp
    (hk.tokens_revoked _ List.mem_cons_self barredToken rfl)
  rw [hrevoked, List.mem_singleton] at he
  subst he
  exact absurd hroot (by decide)

end QCap.RevocationRuns

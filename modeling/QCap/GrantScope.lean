import QCap.SealRoundTrip
import QCap.SerdeDocuments

/-!
# What a grant authorises

The caveats of a token are one text, split at `;` when it is read. A field that is read holds
no delimiter, so the token says what was asked exactly when the request holds none.
-/
namespace QCap.GrantScope

open QCap.Text QCap.Crypto QCap.Formats QCap.Capability QCap.Archive QCap.IssuerCommands
open QCap.SerdeDocuments QCap.SealRoundTrip QCap.Identity

def FreeFields (d : Char) (access : Access) : Prop :=
  Free d access.operation ∧ Free d access.path ∧ Free d access.audience

theorem caveat_free {access : Access} {part : String} (ha : FreeFields ';' access)
    (hp : Free ';' part) : FreeFields ';' (Access.caveat access part) := by
  obtain ⟨ho, hpath, haud⟩ := ha
  unfold Access.caveat
  split
  · rename_i value hv
    rw [stripPrefix_eq_some.mp hv] at hp
    exact ⟨ho, (free_append.mp hp).2, haud⟩
  · split
    · rename_i value hv
      rw [stripPrefix_eq_some.mp hv] at hp
      exact ⟨ho, hpath, (free_append.mp hp).2⟩
    · exact ⟨ho, hpath, haud⟩

theorem caveats_free {parts : List String} (hp : ∀ p ∈ parts, Free ';' p) {access : Access}
    (ha : FreeFields ';' access) : FreeFields ';' (parts.foldl Access.caveat access) := by
  induction parts generalizing access with
  | nil => exact ha
  | cons part parts ih =>
    rw [List.forall_mem_cons] at hp
    exact ih hp.2 (caveat_free ha hp.1)

theorem parse_ok {input : String} {access : Access} : Access.parse input = .ok access ↔
    access = (splitOn input ';').tail.foldl Access.caveat
      ⟨(splitOn input ';').headD "", "*", ""⟩ ∧ access.audience ≠ "" := by
  simp only [Access.parse]
  split
  · rename_i h
    simp only [reduceCtorEq, false_iff, not_and, not_not]
    rintro rfl
    exact h
  · rename_i h
    rw [Except.ok.injEq]
    constructor
    · rintro rfl
      exact ⟨rfl, h⟩
    · rintro ⟨rfl, -⟩
      rfl

/-- Whatever a token says, no delimiter is in a field that is read. -/
theorem parse_free {input : String} {access : Access} (h : Access.parse input = .ok access) :
    FreeFields ';' access ∧ access.audience ≠ "" := by
  obtain ⟨rfl, haud⟩ := parse_ok.mp h
  have hfree := splitOn_free (s := input) (d := ';')
  refine ⟨caveats_free (fun p hp => hfree p (List.mem_of_mem_tail hp)) ?_, haud⟩
  refine ⟨?_, show Free ';' "*" by decide, show Free ';' "" by decide⟩
  obtain ⟨first, rest, hs⟩ := List.exists_cons_of_ne_nil (splitOn_ne_nil input ';')
  rw [hs] at hfree ⊢
  exact hfree first List.mem_cons_self

theorem parse_allowSpec_iff {allow path audience : String} :
    Access.parse (allowSpec allow path audience) = .ok ⟨allow, path, audience⟩ ↔
      Free ';' allow ∧ Free ';' path ∧ Free ';' audience ∧ audience ≠ "" := by
  constructor
  · intro h
    obtain ⟨⟨ha, hp, hu⟩, haud⟩ := parse_free h
    exact ⟨ha, hp, hu, haud⟩
  · rintro ⟨ha, hp, hu, haud⟩
    exact (parse_allowSpec_ok ha hp hu).mpr ⟨haud, rfl⟩

section Injected

variable {allow path audience other : String}

theorem parse_joinWith {parts : List String} {access : Access} (ha : Free ';' allow)
    (hp : ∀ p ∈ parts, Free ';' p) : Access.parse (joinWith ';' (allow :: parts)) = .ok access ↔
      access = parts.foldl Access.caveat ⟨allow, "*", ""⟩ ∧ access.audience ≠ "" := by
  have hs : splitOn (joinWith ';' (allow :: parts)) ';' = allow :: parts :=
    splitOn_joinWith (by simp) (List.forall_mem_cons.mpr ⟨ha, hp⟩)
  rw [parse_ok, hs]
  rfl

theorem parse_injected_path (ha : Free ';' allow) (hp : Free ';' path) (ho : Free ';' other)
    (hu : Free ';' audience) (haud : audience ≠ "") :
    Access.parse (allowSpec allow (path ++ ";path=" ++ other) audience) =
      .ok ⟨allow, other, audience⟩ := by
  have hspec : allowSpec allow (path ++ ";path=" ++ other) audience =
      joinWith ';' [allow, "path=" ++ path, "path=" ++ other, "aud=" ++ audience] := by
    have hd : ";path=" = String.singleton ';' ++ "path=" := by decide
    simp only [allowSpec_eq_joinWith, joinWith_cons_cons, joinWith_singleton, hd,
      String.append_assoc]
  rw [hspec, parse_joinWith ha]
  · simp [Access.caveat, stripPrefix_append, stripPrefix_path_aud, haud]
  · simp only [List.mem_cons, List.not_mem_nil, or_false, forall_eq_or_imp, forall_eq]
    exact ⟨free_append.mpr ⟨by decide, hp⟩, free_append.mpr ⟨by decide, ho⟩,
      free_append.mpr ⟨by decide, hu⟩⟩

end Injected

variable (C : Primitives) (J : JsonCodec)

/-- The token file, as `open` reads it, authorises exactly what was asked. -/
def GrantsExactly (r : GrantRequest) (token : CapabilityToken) : Prop :=
  ∃ cap, readToken (tokenBytes token) = some cap ∧
    Access.parse cap.allow = .ok ⟨r.allow, r.path, r.audience⟩

theorem grant_allow {r : GrantRequest} {token : CapabilityToken} (h : grant C J r = .ok token) :
    token.allow = allowSpec r.allow r.path r.audience := by
  simp only [grant, bind_ok] at h
  obtain ⟨⟨root, key⟩, -, he⟩ := h
  cases he
  rfl

theorem grants_exactly_iff {r : GrantRequest} {token : CapabilityToken}
    (h : grant C J r = .ok token) : GrantsExactly r token ↔
      Free ';' r.allow ∧ Free ';' r.path ∧ Free ';' r.audience ∧ r.audience ≠ "" := by
  rw [GrantsExactly, readToken_tokenBytes, ← parse_allowSpec_iff, ← grant_allow C J h]
  simp

def askedGrant (path audience : String) : GrantRequest :=
  { sampleGrant with allow := "read", path := path, audience := audience }

def askedToken (path audience : String) : CapabilityToken :=
  CapabilityToken.grant toy samplePackage.manifest.merkleRoot (allowSpec "read" path audience)
    sampleGrant.expires signerKey

theorem askedGrant_ok (path audience : String) :
    grant toy sampleCodec (askedGrant path audience) = .ok (askedToken path audience) := by
  obtain ⟨report, hv, hm, -⟩ := sampleZip_verified toy.verify (toy_signatureCorrect _ _)
  rw [grant_ok toy sampleCodec (g := askedGrant path audience) hv rfl
    (issuerKey_legacy toy sampleCodec "issuer" signerKey (pad 32 [9]) noPassphrase), hm]
  rfl

theorem maps_granted_exactly :
    GrantsExactly (askedGrant "maps/*" "07") (askedToken "maps/*" "07") :=
  (grants_exactly_iff toy sampleCodec (askedGrant_ok "maps/*" "07")).mpr
    ⟨by decide, by decide, by decide, by decide⟩

/-- One file name of the host, and the token opens every file. -/
theorem file_name_widens_grant :
    grant toy sampleCodec (askedGrant "a;path=*" "07") = .ok (askedToken "a;path=*" "07") ∧
      readToken (tokenBytes (askedToken "a;path=*" "07")) = some (askedToken "a;path=*" "07") ∧
      Access.parse (askedToken "a;path=*" "07").allow = .ok ⟨"read", "*", "07"⟩ ∧
      ¬ GrantsExactly (askedGrant "a;path=*" "07") (askedToken "a;path=*" "07") := by
  have hread := readToken_tokenBytes (askedToken "a;path=*" "07")
  have hparse : Access.parse (allowSpec "read" ("a" ++ ";path=" ++ "*") "07") =
      .ok ⟨"read", "*", "07"⟩ :=
    parse_injected_path (by decide) (by decide) (by decide) (by decide) (by decide)
  refine ⟨askedGrant_ok _ _, hread, hparse, ?_⟩
  rintro ⟨cap, hcap, haccess⟩
  rw [hread] at hcap
  cases hcap
  have he := Except.ok.inj (hparse.symm.trans haccess)
  exact absurd (congrArg Access.path he) (by decide)

end QCap.GrantScope

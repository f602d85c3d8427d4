import QCap.Signatures

/-!
# Capability tokens

A token signs `root|allow|expires`. The middle field is read a second time, as an
operation followed by `;`-separated caveats of which the last of each kind counts.
-/
namespace QCap.Capability

open QCap.Text QCap.Crypto QCap.Formats QCap.Signatures

variable (C : Primitives)

def grantPayload (capRoot allow expires : String) : String :=
  capRoot ++ "|" ++ allow ++ "|" ++ expires

def CapabilityToken.grant (capRoot allow expires : String) (keypair : Seed) :
    CapabilityToken where
  capRoot := capRoot
  allow := allow
  expires := expires
  signature := hexEncode (C.sign keypair (asBytes (grantPayload capRoot allow expires))).val
  publicKey := hexEncode (C.verifyingKey keypair).val
  algorithm := "ed25519"

def tokenErrors : VerifyErrors := ⟨"bad pk", "bad sig", "cap signature verify failed"⟩

def CapabilityToken.verify (cap : CapabilityToken) : Result Unit :=
  if cap.algorithm ≠ "ed25519" then .error (.message "unsupported algorithm")
  else verifyDetached C tokenErrors cap.publicKey cap.signature
    (asBytes (grantPayload cap.capRoot cap.allow cap.expires))

theorem CapabilityToken.verify_ok {cap : CapabilityToken} :
    CapabilityToken.verify C cap = .ok () ↔ cap.algorithm = "ed25519" ∧
      verifyDetached C tokenErrors cap.publicKey cap.signature
        (asBytes (grantPayload cap.capRoot cap.allow cap.expires)) = .ok () := by
  unfold CapabilityToken.verify
  by_cases h : cap.algorithm = "ed25519" <;> simp [h]

theorem verify_grant {capRoot allow expires : String} {keypair : Seed}
    (h : SignsCorrectly C keypair (asBytes (grantPayload capRoot allow expires))) :
    CapabilityToken.verify C (CapabilityToken.grant C capRoot allow expires keypair) = .ok () :=
  (CapabilityToken.verify_ok C).mpr ⟨rfl, verifyDetached_sign C h _⟩

structure Access where
  operation : String
  path : String
  audience : String
  deriving DecidableEq, Repr

/-- One turn of the loop of `Access::parse`: unknown caveats are skipped. -/
def Access.caveat (access : Access) (part : String) : Access :=
  match stripPrefix part "path=" with
  | some value => { access with path := value }
  | none =>
    match stripPrefix part "aud=" with
    | some value => { access with audience := value }
    | none => access

def Access.parse (input : String) : Result Access :=
  let parts := splitOn input ';'
  let access := parts.tail.foldl Access.caveat ⟨parts.headD "", "*", ""⟩
  if access.audience = "" then .error (.message "capability missing audience") else .ok access

/-- `glob_match`: `*`, the name itself, a leading or a trailing star. -/
def globMatch (pattern candidate : String) : Bool :=
  if pattern = "*" || pattern = candidate then true
  else
    match stripSuffix pattern "*" with
    | some pre => startsWith candidate pre
    | none =>
      match stripPrefix pattern "*" with
      | some suf => endsWith candidate suf
      | none => false

def Access.allowsPath (access : Access) (candidate : String) : Bool :=
  globMatch access.path candidate

def allowSpec (allow path audience : String) : String :=
  allow ++ ";path=" ++ path ++ ";aud=" ++ audience

theorem allowSpec_eq_joinWith (allow path audience : String) :
    allowSpec allow path audience =
      joinWith ';' [allow, "path=" ++ path, "aud=" ++ audience] := by
  rw [joinWith_cons_cons, joinWith_cons_cons, joinWith_singleton]
  have hp : ";path=" = String.singleton ';' ++ "path=" := by decide
  have ha : ";aud=" = String.singleton ';' ++ "aud=" := by decide
  simp only [allowSpec, hp, ha, String.append_assoc]

theorem stripPrefix_path_aud (value : String) : stripPrefix ("aud=" ++ value) "path=" = none := by
  have hs : ("aud=" : String).toList = ['a', 'u', 'd', '='] := by decide
  simp [stripPrefix, startsWith, String.toList_append, hs]

theorem parse_allowSpec {allow path audience : String} (ha : Free ';' allow)
    (hp : Free ';' path) (hu : Free ';' audience) :
    Access.parse (allowSpec allow path audience) =
      if audience = "" then .error (.message "capability missing audience")
      else .ok ⟨allow, path, audience⟩ := by
  have hfree : ∀ p ∈ [allow, "path=" ++ path, "aud=" ++ audience], Free ';' p := by
    simp only [List.mem_cons, List.not_mem_nil, or_false, forall_eq_or_imp, forall_eq]
    exact ⟨ha, free_append.mpr ⟨by decide, hp⟩, free_append.mpr ⟨by decide, hu⟩⟩
  have hs := splitOn_joinWith (by simp) hfree
  simp [Access.parse, allowSpec_eq_joinWith, hs, Access.caveat, stripPrefix_append,
    stripPrefix_path_aud]

theorem parse_allowSpec_ok {allow path audience : String} {access : Access}
    (ha : Free ';' allow) (hp : Free ';' path) (hu : Free ';' audience) :
    Access.parse (allowSpec allow path audience) = .ok access ↔
      audience ≠ "" ∧ access = ⟨allow, path, audience⟩ := by
  rw [parse_allowSpec ha hp hu]
  by_cases h : audience = ""
  · simp [h]
  · simp [h, eq_comm]

/-- `enforce_expiry` with the clock as an argument. -/
def enforceExpiry (expires : String) (now : ℕ) : Result Unit :=
  match stripPrefix expires "unix-seconds:" with
  | some raw =>
    match parseU64 raw with
    | none => .error .number
    | some expiry =>
      if now > expiry then .error (.message "capability has expired") else .ok ()
  | none => .error (.message "unsupported expiry format; use unix-seconds:<ts>")

def ExpiresAt (expires : String) (expiry : ℕ) : Prop :=
  ∃ raw, expires = "unix-seconds:" ++ raw ∧ parseU64 raw = some expiry

theorem enforceExpiry_ok {expires : String} {now : ℕ} :
    enforceExpiry expires now = .ok () ↔ ∃ expiry, ExpiresAt expires expiry ∧ now ≤ expiry := by
  unfold enforceExpiry ExpiresAt
  cases hs : stripPrefix expires "unix-seconds:" with
  | none =>
    have hn : ∀ raw, expires ≠ "unix-seconds:" ++ raw := by
      rintro raw rfl
      simp [stripPrefix_append] at hs
    simp [hn]
  | some raw =>
    have heq := stripPrefix_eq_some.mp hs
    subst heq
    have hinj : ∀ raw', "unix-seconds:" ++ raw = "unix-seconds:" ++ raw' ↔ raw = raw' :=
      fun _ => String.append_right_inj _
    simp only [hinj, exists_eq_left']
    cases hp : parseU64 raw <;> simp

theorem ExpiresAt.free {expires : String} {expiry : ℕ} (h : ExpiresAt expires expiry) :
    Free '|' expires := by
  obtain ⟨raw, rfl, hp⟩ := h
  exact free_append.mpr ⟨by decide, parseU64_free (by decide) (by decide) hp⟩

/-- The root is split off at the first delimiter and the expiry at the last, so the field
between them may hold anything. -/
theorem grantPayload_injective {r r' a a' e e' : String} (hr : Free '|' r) (hr' : Free '|' r')
    (he : Free '|' e) (he' : Free '|' e') (h : grantPayload r a e = grantPayload r' a' e') :
    r = r' ∧ a = a' ∧ e = e' := by
  unfold grantPayload at h
  have hbar : ("|" : String) = String.singleton '|' := rfl
  rw [hbar] at h
  obtain ⟨hra, hee⟩ := append_delimiter_inj_right he he' h
  obtain ⟨hrr, haa⟩ := append_delimiter_inj hr hr' hra
  exact ⟨hrr, haa, hee⟩

example : Access.parse "read;path=a*;aud=me;path=b*" = .ok ⟨"read", "b*", "me"⟩ := by decide
example : (["*", "*.tif", "maps/*", "m"].map (globMatch · "maps/a.tif")) =
    [true, true, true, false] := by decide

end QCap.Capability

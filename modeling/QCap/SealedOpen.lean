import QCap.IssuerHistory

/-!
# Opening a sealed package

The archive that reaches a reader may be assembled by anyone around a signed manifest. The
manifest pins every ciphertext by its hash, and the hash, the nonce and the path pin the
plaintext.
-/
namespace QCap.SealedOpen

open QCap.Text QCap.PathTree QCap.Crypto QCap.Formats QCap.Signatures QCap.PayloadMerkle
open QCap.Capability QCap.Identity QCap.KeyWrap QCap.Archive QCap.OpenArchive
open QCap.IssuerCommands QCap.Sealing QCap.SealRoundTrip QCap.IssuerHistory

variable (C : Primitives) (J : JsonCodec)

def ManifestsReadBack (history : List IssuerOp) : Prop :=
  (∀ r, IssuerOp.pack r ∈ history →
    J.parseManifest (J.manifestBytes (packManifest C r)) = some (packManifest C r)) ∧
  ∀ r package, IssuerOp.sealArchive r ∈ history → sealPackage C J r = .ok package →
    J.parseManifest (J.manifestBytes package.manifest) = some package.manifest

def SealedBytes (history : List IssuerOp) (bytes : Bytes) : Prop :=
  ∃ r package p, IssuerOp.sealArchive r ∈ history ∧ sealPackage C J r = .ok package ∧
    package.encryptedRoot.read p = some bytes

def PayloadBytes (zip : Zip) (bytes : Bytes) : Prop :=
  ∃ entry ∈ zip, startsWith entry.name "payload/" = true ∧ entry.bytes = bytes

theorem forall₂_eq_map {α β : Type} {R : α → β → Prop} {f : α → β} {xs : List α} {ys : List β}
    (h : List.Forall₂ R xs ys) (hf : ∀ x ∈ xs, ∀ y, R x y → y = f x) : ys = xs.map f := by
  induction h with
  | nil => rfl
  | cons hr _ ih =>
    rw [List.map_cons, hf _ (by simp) _ hr, ih fun x hx => hf x (List.mem_cons_of_mem _ hx)]

theorem decryptFile_turn (hA : AeadCorrect C) {zip : Zip} {key : Key} {f : SealedFile}
    (hf : f.Valid C key) {plaintext : Bytes}
    (hn : NoCollision C (· = f.ciphertext) (PayloadBytes zip))
    (h : decryptFile C zip key (f.spec C) = .ok plaintext) : plaintext = f.plaintext := by
  simp only [decryptFile, bind_ok, ensure_ok] at h
  obtain ⟨entry, he, _, hh, nonce, hnc, hd⟩ := h
  obtain ⟨hm, hname⟩ := byName_ok he
  have hb : entry.bytes = f.ciphertext := by
    refine (hn _ _ rfl ⟨entry, hm, ?_, rfl⟩ ((blake3Prefixed_inj C).mp hh).symm).symm
    rw [hname]
    exact startsWith_append _ _
  rw [SealedFile.spec, decodeFixed_hexEncode] at hnc
  cases hnc
  rw [hb, SealedFile.spec, decrypt_encrypt C hA hf.encrypted] at hd
  exact (Except.ok.inj hd).symm

theorem contentKeyFor_sealed (hA : AeadCorrect C) (hD : Agreement C) {q : SealRequest}
    {package : SealedPackage} {inputDir : Tree} {issuer recipient : Identity}
    {stanza : RecipientStanza} {turns : List SealedFile}
    (hs : Sealed C J q package inputDir issuer recipient stanza turns) {identity : Identity}
    {passphrase : Option String} {key : Key}
    (h : contentKeyFor C J package.manifest identity passphrase = .ok key) :
    key = q.contentKey := by
  simp only [contentKeyFor, hs.manifest, QcapManifest.newSealed, bind_ok, okOr_ok] at h
  obtain ⟨_, hid, s, hfind, hu⟩ := h
  cases hid
  have hmem := List.mem_singleton.mp (List.mem_of_find?_eq_some hfind)
  have hrec : s.recipient = identity.encryptionPublicKey := by simpa using List.find?_some hfind
  subst hmem
  obtain ⟨pk, wrapped, -, -, hst⟩ := wrapContentKey_ok C hs.wrapped
  obtain ⟨secret, hsec⟩ := unwrapContentKey_secret C J hu
  have hid : identity.encryptionPublicKey = recipient.encryptionPublicKey := by
    rw [← hrec, hst]
  rw [unwrap_wrap C J hA hD hs.wrapped hid hsec] at hu
  exact (Except.ok.inj hu).symm

/-- Whatever the archive looks like: when a sealed package of `pk` opens into an empty
directory, the files there are the input files of a `seal` run that the pattern matches. -/
theorem sealed_open_exact (hR : J.ReadsObjects) (hA : AeadCorrect C) (hD : Agreement C)
    {pk : PublicKey} {history : List IssuerOp} (hU : Unforgeable C pk (SignedBy C J pk history))
    (hback : ManifestsReadBack C J history)
    (hplain : ∀ q inputDir, IssuerOp.sealArchive q ∈ history → q.inputDir = some inputDir →
      PlainNames inputDir)
    {r : OpenRequest} {report : VerifyReport} {cap : CapabilityToken}
    (hn : NoCollision C (SealedBytes C J history) (PayloadBytes r.file))
    (hv : verifyArchive C J r.file = .ok report) (henc : report.manifest.encrypted = true)
    (hc : r.cap = .ok cap) (hpk : hexDecode cap.publicKey = some pk.val) {out : Tree}
    (ho : openArchive C J r Tree.empty = (.ok (), out)) :
    ∃ q package inputDir access, IssuerOp.sealArchive q ∈ history ∧
      sealPackage C J q = .ok package ∧ C.verifyingKey package.key = pk ∧
      q.inputDir = some inputDir ∧ package.manifest.merkleRoot = cap.capRoot ∧
      Access.parse cap.allow = .ok access ∧
      ∀ p, out.read p = if globMatch access.path (pathString p) then inputDir.read p else none := by
  obtain ⟨cap', report', identity, access, hc', ha, hx⟩ := openArchive_ok C J ho
  cases ha.verified.symm.trans hv
  cases hc'.symm.trans hc
  obtain ⟨manifestBytes, tree, hver⟩ := (verifyArchive_ok C J).mp hv
  have hmsg := verifyDetached_signed C hU (ha.signer ▸ hpk)
    ((verifyManifestSignature_ok C).mp hver.signed).2
  -- the manifest is that of a `seal` run: `pack` writes unencrypted ones
  rcases signed_document_is_manifest C J hmsg (hR _ _ hver.manifest_parsed) with
    ⟨q, key, hq, -, -, rfl⟩ | ⟨q, package, hq, hpkg, hkey, rfl⟩
  · have hm := hver.manifest_parsed
    rw [hback.1 q hq] at hm
    rw [← Option.some.inj hm] at henc
    cases henc
  · have hm := hver.manifest_parsed
    rw [hback.2 q package hq hpkg] at hm
    have hman := Option.some.inj hm
    obtain ⟨inputDir, issuer, recipient, stanza, turns, hs⟩ := sealPackage_ok C J hpkg
    have hplain := hplain q inputDir hq hs.input_dir
    refine ⟨q, package, inputDir, access, hq, hpkg, hkey, hs.input_dir,
      (congrArg QcapManifest.merkleRoot hman).trans ha.accessible.root.symm,
      ha.accessible.parsed, ?_⟩
    unfold exportPayload at hx
    rw [if_pos henc] at hx
    split at hx
    · cases hx
    · split at hx
      · cases hx
      · obtain ⟨key, writes, hk, hd, hw, -⟩ := openEncrypted_ok C J hx
        rw [← hman] at hk hd
        have hkey := contentKeyFor_sealed C J hA hD hs hk
        have hfiles : package.manifest.files = turns.map (SealedFile.spec C) := by
          rw [hs.manifest]
          rfl
        rw [hfiles, List.filter_map, Decrypted, List.forall₂_map_left_iff] at hd
        have hwrites : writes = plaintexts access.allowsPath turns := by
          refine forall₂_eq_map hd fun f hf w hfw => ?_
          have hft := (List.mem_filter.mp hf).1
          have hb := hs.encrypted_read C J hplain hft
          refine Prod.ext hfw.1 (decryptFile_turn C hA (hs.valid f hft) ?_ (hkey ▸ hfw.2))
          intro x y hx hy
          exact hn x y ⟨q, package, f.source, hq, hpkg, hx ▸ hb⟩ hy
        rw [hwrites, hs.plaintexts_eq C J hplain] at hw
        intro p
        rw [wrote_read hw, Tree.read_empty, Option.or_none, lastWrite_matchingFiles]
        rfl

theorem sampleBytes_noCollision :
    NoCollision (toyLog sampleMessages)
      (SealedBytes (toyLog sampleMessages) sampleCodec sampleHistory)
      (PayloadBytes sampleZip) := by
  have hall : ∀ x ∈ (payloadFiles samplePackage.encryptedRoot).map Prod.snd, ∀ e ∈ sampleZip,
      startsWith e.name "payload/" = true → toyHash x = toyHash e.bytes → x = e.bytes := by
    decide +kernel
  rintro x y ⟨q, package, p, hq, hp, hx⟩ ⟨e, he, hs, rfl⟩ hh
  obtain ⟨rfl, rfl⟩ := sampleHistory_packages hq hp
  exact hall x (List.mem_map_of_mem (mem_payloadFiles.mpr hx)) e he hs hh

theorem sealed_open_sample :
    ∃ out, openArchive (toyLog sampleMessages) sampleCodec sampleOpen Tree.empty = (.ok (), out) ∧
      ∃ q package inputDir access, IssuerOp.sealArchive q ∈ sampleHistory ∧
        sealPackage (toyLog sampleMessages) sampleCodec q = .ok package ∧
        (toyLog sampleMessages).verifyingKey package.key = signerKey ∧
        q.inputDir = some inputDir ∧ package.manifest.merkleRoot = sampleToken.capRoot ∧
        Access.parse sampleToken.allow = .ok access ∧
        ∀ p, out.read p =
          if globMatch access.path (pathString p) then inputDir.read p else none := by
  obtain ⟨report, hv, hm, -⟩ := sampleZip_verified _ sampleManifest_signs
  obtain ⟨_, _, _, _, _, hs⟩ := sealPackage_ok _ sampleCodec sampleHistory_seal
  obtain ⟨out, ho⟩ := sampleOpen_ok
  refine ⟨out, ho, ?_⟩
  refine sealed_open_exact (toyLog sampleMessages) sampleCodec (r := sampleOpen)
    (Json.documentCodec_readsObjects _ _ _) toy_aeadCorrect toy_agreement
    sampleHistory_unforgeable ⟨?_, ?_⟩ ?_ sampleBytes_noCollision hv (hm ▸ hs.manifest ▸ rfl) rfl
    (hexDecode_hexEncode _) ho
  · simp [sampleHistory]
  · intro q package hq hp
    obtain ⟨rfl, rfl⟩ := sampleHistory_packages hq hp
    exact (packageCodec_readsBack toy samplePackage _).1
  · intro q inputDir hq hd
    have he : q = sampleSeal := by simpa [sampleHistory] using hq
    cases he
    cases hd
    decide

end QCap.SealedOpen

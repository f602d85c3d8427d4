import QCap.IssuerCommands

/-!
# Sealed packages

What a run of `seal` builds: one ciphertext per input file, under the same path, and a
manifest that describes them all. For input names without backslashes the path is kept
character by character.
-/
namespace QCap.Sealing

open QCap.Text QCap.PathTree QCap.Crypto QCap.Formats QCap.Signatures QCap.PayloadMerkle
open QCap.Capability QCap.Identity QCap.KeyWrap QCap.Archive QCap.IssuerCommands

variable (C : Primitives) (J : JsonCodec)

structure SealedFile where
  source : RelPath
  rel : String
  plaintext : Bytes
  nonce : Nonce
  ciphertext : Bytes

def SealedFile.spec (file : SealedFile) : PayloadFile where
  path := file.rel
  size := file.ciphertext.length
  nonce := hexEncode file.nonce.val
  ciphertextHash := blake3Prefixed C file.ciphertext

structure SealedFile.Valid (key : Key) (file : SealedFile) : Prop where
  rel_path : relPath file.source = .ok file.rel
  encrypted : encrypt C key file.nonce (asBytes file.rel) file.plaintext = .ok file.ciphertext

def SealedFile.write (file : SealedFile) : FileWrite := (file.rel, file.ciphertext)

theorem sealFiles_ok {r : SealRequest} {i : ℕ} {files : List (RelPath × Bytes)}
    {root root' : Tree} {specs : List PayloadFile}
    (h : sealFiles C r i files root = .ok (root', specs)) :
    ∃ turns : List SealedFile, turns.map (fun f => (f.source, f.plaintext)) = files ∧
      specs = turns.map (SealedFile.spec C) ∧ Wrote (turns.map SealedFile.write) root root' ∧
      ∀ f ∈ turns, f.Valid C r.contentKey := by
  induction files generalizing i root specs with
  | nil =>
    cases h
    exact ⟨[], rfl, rfl, rfl, by simp⟩
  | cons file rest ih =>
    obtain ⟨p, plaintext⟩ := file
    simp only [sealFiles, bind_ok] at h
    obtain ⟨rel, hrel, ciphertext, hc, h⟩ := h
    split at h
    · cases h
    · rename_i m hw
      simp only [bind_ok] at h
      obtain ⟨⟨final, more⟩, hr, he⟩ := h
      cases he
      obtain ⟨turns, hs, rfl, hwr, hv⟩ := ih hr
      refine ⟨⟨p, rel, plaintext, r.fileNonce i, ciphertext⟩ :: turns, ?_, rfl, ⟨m, hw, hwr⟩, ?_⟩
      · rw [List.map_cons, hs]
      · rw [List.forall_mem_cons]
        exact ⟨⟨hrel, hc⟩, hv⟩

theorem replaceChar_pathString {p : RelPath} (hp : ∀ n ∈ p, Free '\\' n) :
    replaceChar (pathString p) '\\' '/' = pathString p :=
  replaceChar_free (pathString_free (by decide) hp)

theorem relPath_plain {p : RelPath} (hne : p ≠ []) (hn : ∀ n ∈ p, FileName n)
    (hp : ∀ n ∈ p, Free '\\' n) : relPath p = .ok (pathString p) := by
  simp only [relPath, replaceChar_pathString hp, bind_ok]
  exact ⟨(), validate_pathString hne hn, rfl⟩

theorem plain_of_mem {t : Tree} (ht : PlainNames t) {p : RelPath} {b : Bytes}
    (h : (p, b) ∈ payloadFiles t) :
    p ∈ t.files ∧ p ≠ [] ∧ (∀ n ∈ p, FileName n) ∧ ∀ n ∈ p, Free '\\' n := by
  have hm := Tree.mem_files.mpr ⟨b, mem_payloadFiles.mp h⟩
  exact ⟨hm, Tree.file_ne_nil hm, Tree.file_names hm, ht p (AList.mem_keys.mp hm)⟩

structure Sealed (r : SealRequest) (package : SealedPackage) (inputDir : Tree)
    (issuer recipient : Identity) (stanza : RecipientStanza) (turns : List SealedFile) :
    Prop where
  input_dir : r.inputDir = some inputDir
  issuer_read : r.issuer = .ok issuer
  recipient_read : r.recipient = .ok recipient
  key : issuerKey C J issuer r.passphrase = .ok package.key
  sources : turns.map (fun f => (f.source, f.plaintext)) = payloadFiles inputDir
  valid : ∀ f ∈ turns, f.Valid C r.contentKey
  wrote : Wrote (turns.map SealedFile.write) Tree.empty package.encryptedRoot
  wrapped : wrapContentKey C r.contentKey (randomId r.packageRandom) recipient
    r.ephemeralSecret r.wrapNonce = .ok stanza
  manifest : package.manifest = QcapManifest.newSealed "0.2.0" (randomId r.packageRandom)
    (computePayloadMerkleRoot C.blake3 package.encryptedRoot) (some (identityId issuer))
    (.object [("title", .string "Q-Cap MVP sealed package")]) (turns.map (SealedFile.spec C))
    [stanza] r.now

theorem sealPackage_ok {r : SealRequest} {package : SealedPackage}
    (h : sealPackage C J r = .ok package) :
    ∃ inputDir issuer recipient stanza turns,
      Sealed C J r package inputDir issuer recipient stanza turns := by
  simp only [sealPackage, bind_ok, okOr_ok] at h
  obtain ⟨inputDir, hd, issuer, hi, recipient, hr, passphrase, hp, ⟨root, specs⟩, hs, stanza, hw,
    key, hk, he⟩ := h
  obtain ⟨turns, hsrc, rfl, hwr, hv⟩ := sealFiles_ok C hs
  cases he
  refine ⟨inputDir, issuer, recipient, stanza, turns, hd, hi, hr, ?_, hsrc, hv, hwr, hw, rfl⟩
  simp only [issuerKey, bind_ok]
  exact ⟨passphrase, hp, hk⟩

variable {r : SealRequest} {package : SealedPackage} {inputDir : Tree}
  {issuer recipient : Identity} {stanza : RecipientStanza} {turns : List SealedFile}

theorem Sealed.source_mem (h : Sealed C J r package inputDir issuer recipient stanza turns)
    {f : SealedFile} (hf : f ∈ turns) : (f.source, f.plaintext) ∈ payloadFiles inputDir := by
  rw [← h.sources]
  exact List.mem_map_of_mem hf

theorem Sealed.sources_nodup (h : Sealed C J r package inputDir issuer recipient stanza turns) :
    (turns.map SealedFile.source).Nodup := by
  have hn := payloadFiles_nodup inputDir
  rw [← h.sources, List.map_map] at hn
  exact hn

theorem Sealed.rel_eq (h : Sealed C J r package inputDir issuer recipient stanza turns)
    (ht : PlainNames inputDir) {f : SealedFile} (hf : f ∈ turns) :
    f.rel = pathString f.source ∧ destination f.rel = f.source := by
  obtain ⟨-, hne, hn, hp⟩ := plain_of_mem ht (h.source_mem C J hf)
  have hr := (h.valid f hf).rel_path
  rw [relPath_plain hne hn hp] at hr
  have he := Except.ok.inj hr
  exact ⟨he.symm, by rw [← he]; exact destination_pathString hne hn⟩

/-- The encrypted tree holds the ciphertext of each input file at its path. -/
theorem Sealed.encrypted_read (h : Sealed C J r package inputDir issuer recipient stanza turns)
    (ht : PlainNames inputDir) {f : SealedFile} (hf : f ∈ turns) :
    package.encryptedRoot.read f.source = some f.ciphertext := by
  have hmap : (turns.map SealedFile.write).map (fun w => destination w.1) =
      turns.map SealedFile.source := by
    rw [List.map_map]
    exact List.map_congr_left fun g hg => (h.rel_eq C J ht hg).2
  have hlast := WriteLog.last_of_nodup (fun w : FileWrite => destination w.1) (fun w => w.2)
    (hmap ▸ h.sources_nodup C J) (List.mem_map_of_mem hf)
  rw [wrote_read h.wrote, lastWrite, ← (h.rel_eq C J ht hf).2]
  rw [show destination f.rel = destination f.write.1 from rfl, hlast]
  rfl

theorem Sealed.encrypted_source (h : Sealed C J r package inputDir issuer recipient stanza turns)
    (ht : PlainNames inputDir) {p : RelPath} {b : Bytes}
    (hb : package.encryptedRoot.read p = some b) :
    ∃ f ∈ turns, f.source = p ∧ f.ciphertext = b := by
  rw [wrote_read h.wrote, Tree.read_empty, Option.or_none] at hb
  obtain ⟨w, hw, hp, hb⟩ := WriteLog.last_mem _ _ hb
  obtain ⟨f, hf, rfl⟩ := List.mem_map.mp hw
  exact ⟨f, hf, (h.rel_eq C J ht hf).2.symm.trans hp, hb⟩

def plaintexts (allowed : String → Bool) (turns : List SealedFile) : List FileWrite :=
  (turns.filter fun f => allowed f.rel).map fun f => (f.rel, f.plaintext)

theorem Sealed.plaintexts_eq (h : Sealed C J r package inputDir issuer recipient stanza turns)
    (ht : PlainNames inputDir) (allowed : String → Bool) :
    plaintexts allowed turns = matchingFiles allowed inputDir := by
  have hrel := fun f hf => (h.rel_eq C J ht (f := f) hf).1
  rw [matchingFiles, ← h.sources, List.filter_map, List.map_map, plaintexts]
  have hfilter : turns.filter (fun f => allowed f.rel) =
      turns.filter ((fun f => allowed (pathString f.1)) ∘
        fun f : SealedFile => (f.source, f.plaintext)) := by
    refine List.filter_congr fun f hf => ?_
    simp only [Function.comp_apply, hrel f hf]
  rw [← hfilter]
  refine List.map_congr_left fun f hf => ?_
  simp only [Function.comp_apply, hrel f (List.mem_filter.mp hf).1]

end QCap.Sealing

import QCap.OpenArchive
import QCap.Json

/-!
# Plain export

`verify_archive` hashes what the whole payload leaves behind, `open_plain` writes the
matching entries only. Both resolve names in the same way, but several names may resolve to
one file, and then the entry that the filter drops may be the one that was verified.
-/
namespace QCap.PlainExport

open QCap.Text QCap.PathTree QCap.Crypto QCap.Formats QCap.Signatures QCap.PayloadMerkle
open QCap.Capability QCap.Archive QCap.OpenArchive

variable (C : Primitives) (J : JsonCodec)

/-- Some matching entry is the last matching one for its file, and a later entry that does not
match has another name for the same file and leaves different bytes there. -/
def HiddenOverwrite (access : Access) (zip : Zip) : Prop :=
  WriteLog.Overridden (fun w => destination w.1) (fun w => w.2)
    (fun w => access.allowsPath w.1) (payloadWrites zip)

theorem exported_read {zip : Zip} {access : Access} {out : Tree}
    (h : openPlain zip access Tree.empty = (.ok (), out)) (p : RelPath) :
    out.read p = lastWrite (allowedWrites access.allowsPath zip) p := by
  rw [wrote_read (openPlain_ok h), Tree.read_empty, Option.or_none]

/-- Every exported file is a file of the tree whose root was verified, with its bytes, unless
an entry outside the pattern overwrites an exported one. -/
theorem plain_export_verified_iff {zip : Zip} {report : VerifyReport} {manifestBytes : Bytes}
    {tree out : Tree} {access : Access} (hv : Verified C J zip report manifestBytes tree)
    (ho : openPlain zip access Tree.empty = (.ok (), out)) :
    (∀ p b, out.read p = some b → tree.read p = some b) ↔ ¬ HiddenOverwrite access zip := by
  simp only [hv.read, exported_read ho]
  exact WriteLog.filter_agrees_iff _ _ _ _

def payloadTree (payload : Zip) : Tree := (extractPayload payload).2

def plainManifest (payload : Zip) : QcapManifest :=
  QcapManifest.newWithNow "0.1.0" (computePayloadMerkleRoot C.blake3 (payloadTree payload)) none
    (.object []) 1700000000

def plainBundle (payload : Zip) : QcapSignatureBundle :=
  signManifest C (Json.manifestBytes (plainManifest C payload)) (plainManifest C payload).merkleRoot
    signerKey

def plainHeader (payload : Zip) : Zip :=
  [⟨"manifest.json", Json.manifestBytes (plainManifest C payload)⟩,
    ⟨"signatures/manifest.sig.json", Json.bundleBytes (plainBundle C payload)⟩]

def plainArchive (payload : Zip) : Zip := plainHeader C payload ++ payload

def plainCodec (payload : Zip) : JsonCodec :=
  Json.documentCodec [plainManifest C payload] [plainBundle C payload] []

def plainReport (payload : Zip) (n : ℕ) : VerifyReport :=
  ⟨plainManifest C payload, plainBundle C payload, n⟩

theorem plainHeader_skipped (payload : Zip) :
    ∀ entry ∈ plainHeader C payload, payloadRel entry = none := by
  intro entry h
  simp only [plainHeader, List.mem_cons, List.not_mem_nil, or_false] at h
  rcases h with rfl | rfl <;> exact payloadRel_none (by decide)

theorem plainArchive_verified {payload : Zip} {n : ℕ}
    (h : SignsCorrectly C signerKey (Json.manifestBytes (plainManifest C payload)))
    (hm : ∀ entry ∈ payload, entry.name ≠ "manifest.json")
    (hs : ∀ entry ∈ payload, entry.name ≠ "signatures/manifest.sig.json")
    (hx : (extractPayload payload).1 = .ok n) :
    Verified C (plainCodec C payload) (plainArchive C payload) (plainReport C payload n)
      (Json.manifestBytes (plainManifest C payload)) (payloadTree payload) := by
  obtain ⟨hpm, hpb⟩ :=
    Json.documentCodec_single (plainManifest C payload) (plainBundle C payload) []
  refine verified_signed C (plainCodec C payload) h rfl ?_ ?_ hpm hpb ?_ rfl
  · rw [plainArchive, byName_header hm]
    rfl
  · rw [plainArchive, byName_header hs]
    rfl
  · rw [extractPayload, plainArchive, writeEntries_header (plainHeader_skipped C payload)]
    exact Prod.ext hx rfl

def readA : Access := ⟨"read", "a", "ab00000000000000"⟩

def twoFiles : Zip := [⟨"payload/a", [1]⟩, ⟨"payload/b", [2]⟩]

def aliasedFiles : Zip := [⟨"payload/a", [1]⟩, ⟨"payload/./a", [2]⟩]

theorem twoFiles_verified
    (h : SignsCorrectly C signerKey (Json.manifestBytes (plainManifest C twoFiles))) :
    Verified C (plainCodec C twoFiles) (plainArchive C twoFiles) (plainReport C twoFiles 2)
      (Json.manifestBytes (plainManifest C twoFiles)) (payloadTree twoFiles) :=
  plainArchive_verified C h (by decide) (by decide) (by decide)

theorem plain_export_two_files :
    (∀ p b, (openPlain (plainArchive toy twoFiles) readA Tree.empty).2.read p = some b →
      (payloadTree twoFiles).read p = some b) ↔
      ¬ HiddenOverwrite readA (plainArchive toy twoFiles) :=
  plain_export_verified_iff toy (plainCodec toy twoFiles)
    (twoFiles_verified toy (toy_signatureCorrect _ _)) (Prod.ext (by decide) rfl)

/-- The archive with the aliased name is accepted and the pattern `a` exports a file that no
verified file equals. -/
theorem plain_export_alias_unverified :
    verifyArchive toy (plainCodec toy aliasedFiles) (plainArchive toy aliasedFiles) =
        .ok (plainReport toy aliasedFiles 2) ∧
      (plainReport toy aliasedFiles 2).manifest.encrypted = false ∧
      extractPayload (plainArchive toy aliasedFiles) = (.ok 2, payloadTree aliasedFiles) ∧
      (openPlain (plainArchive toy aliasedFiles) readA Tree.empty).1 = .ok () ∧
      (openPlain (plainArchive toy aliasedFiles) readA Tree.empty).2.read ["a"] = some [1] ∧
      (payloadTree aliasedFiles).read ["a"] = some [2] := by
  have hv : Verified toy _ _ (plainReport toy aliasedFiles 2) _ _ :=
    plainArchive_verified toy (toy_signatureCorrect _ _) (by decide) (by decide) (by decide)
  exact ⟨(verifyArchive_ok _ _).mpr ⟨_, _, hv⟩, rfl, hv.extracted, by decide, by decide, by decide⟩

end QCap.PlainExport

import QCap.LeftOut

/-!
# Pack and verify

`pack` walks its input twice: for the root, and again for the archive once the output file is
there. The input need not be a directory, and the output may lie in it.
-/
namespace QCap.PackVerify

open QCap.Text QCap.PathTree QCap.Crypto QCap.Formats QCap.Signatures QCap.PayloadMerkle
open QCap.Identity QCap.Archive QCap.IssuerCommands QCap.InputTree QCap.InputText
open QCap.HostArchive QCap.HostPack QCap.QuietHost

variable {C : Primitives} {J : JsonCodec}

/-- A directory and an output that is no path in it, or nothing at all at the input path. -/
inductive Apart : HostInput → HostOutput → Prop
  | directory (t : HostTree) (created : Result Unit) : Apart (.directory t) (.outside created)
  | missing (out : HostOutput) : Apart .missing out

theorem created_count (manifest : QcapManifest) (signature : QcapSignatureBundle) {t : Tree}
    (ht : PlainNames t) : ∃ tree,
      extractPayload (createQcapArchiveWithSignature J t manifest signature) =
        (.ok (payloadFiles t).length, tree) ∧ ∀ p, tree.read p = t.read p := by
  obtain ⟨n, tree, hx, hread⟩ : ∃ n tree,
      extractPayload (createQcapArchiveWithSignature J t manifest signature) = (.ok n, tree) ∧
        ∀ p, tree.read p = t.read p := created_extract J ht
  have hcount := (writeEntries_ok hx).2.1
  rw [allowedWrites_true, created_writes J ht, matchingFiles, List.filter_true, List.length_map,
    Nat.zero_add] at hcount
  exact ⟨tree, by rw [hx, hcount], hread⟩

theorem packed {r : HostPackRequest} {calls : Calls}
    (h : packHost C J r = (.ok (), some calls)) :
    ∃ root key walked, Opened C J r root key walked ∧
      archiveCalls J walked r.archiving (hostManifest r.now root)
        (hostBundle C J (hostManifest r.now root) key) = calls.made.map .ok := by
  obtain ⟨made, hbegun, hcalls⟩ := writeArchive_ok
    (show (writeArchive r.failing (packCalls C J r)).1 = .ok () from congrArg Prod.fst h)
  obtain ⟨root, key, walked, hopened, hplan⟩ := packCalls_ok.mp hbegun
  cases hcalls.symm.trans h
  exact ⟨root, key, walked, hopened, hplan.symm⟩

/-- An entry that is named `payload/` is a directory to the reader. -/
def Trailing (rest : Zip) : Prop := ∀ entry ∈ rest, entry.name = "payload/"

theorem extract_trailing {t : Tree} (ht : PlainNames t) (manifest : QcapManifest)
    (signature : QcapSignatureBundle) {rest : Zip} (hrest : Trailing rest) : ∃ tree,
      extractPayload (createQcapArchiveWithSignature J t manifest signature ++ rest) =
        (.ok (payloadFiles t).length, tree) ∧ ∀ p, tree.read p = t.read p := by
  obtain ⟨tree, hx, hread⟩ := created_count (J := J) manifest signature ht
  obtain ⟨hwrote, hlength, hvalid⟩ := writeEntries_ok hx
  have hnone : payloadWrites rest = [] := by
    rw [payloadWrites, List.filterMap_eq_nil_iff]
    intro entry he
    have hdir : payloadRel entry = none := by
      rw [payloadRel, if_pos (by rw [hrest entry he]; decide)]
    rw [hdir]
    rfl
  have hsame : allowedWrites (fun _ => true)
      (createQcapArchiveWithSignature J t manifest signature ++ rest) =
      allowedWrites (fun _ => true) (createQcapArchiveWithSignature J t manifest signature) := by
    rw [allowedWrites_true, allowedWrites_true, payloadWrites, List.filterMap_append,
      ← payloadWrites, ← payloadWrites, hnone, List.append_nil]
  rw [← hsame] at hwrote hlength hvalid
  have hextract := @writeEntries_wrote _ _ _ _ 0 hvalid hwrote
  rw [← hlength] at hextract
  exact ⟨tree, hextract, hread⟩

theorem accepted (hC : SignatureCorrect C) {t : Tree} (ht : PlainNames t)
    {manifest : QcapManifest} {key : Seed} {rest : Zip} (hrest : Trailing rest)
    (hroot : manifest.merkleRoot = computePayloadMerkleRoot C.blake3 t)
    (hm : J.parseManifest (J.manifestBytes manifest) = some manifest)
    (hb : J.parseBundle (J.bundleBytes (hostBundle C J manifest key)) =
      some (hostBundle C J manifest key)) :
    ∃ report, verifyArchive C J
        (createQcapArchiveWithSignature J t manifest (hostBundle C J manifest key) ++ rest) =
          .ok report ∧ report.payloadFiles = (payloadFiles t).length := by
  obtain ⟨tree, hx, hread⟩ := extract_trailing ht manifest (hostBundle C J manifest key) hrest
  have hname : ∀ name, startsWith name "payload/" = false →
      byName (createQcapArchiveWithSignature J t manifest (hostBundle C J manifest key) ++ rest)
        name = byName [⟨"manifest.json", J.manifestBytes manifest⟩, ⟨"meta/", []⟩,
          ⟨"signatures/", []⟩, ⟨"signatures/manifest.sig.json",
            J.bundleBytes (hostBundle C J manifest key)⟩] name := by
    intro name hname
    rw [byName_header, created_byName J ht hname]
    intro entry he heq
    rw [← heq, hrest entry he] at hname
    revert hname
    decide
  refine ⟨_, (verifyArchive_ok C J).mpr ⟨_, tree, verified_signed C J (hC _ _) rfl ?_ ?_ hm hb
    hx ?_⟩, rfl⟩
  · rw [hname _ (by decide)]
    rfl
  · rw [hname _ (by decide)]
    rfl
  · rw [root_congr C.blake3 hread, hroot]

def sampleRoot (t : Tree) : String := computePayloadMerkleRoot toy.blake3 t

def oneFile : Tree := (writeUnder Tree.empty "a" [1]).2

end QCap.PackVerify

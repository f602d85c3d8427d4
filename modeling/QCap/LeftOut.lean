import QCap.QuietHost
import QCap.SealRoundTrip

/-!
# Files that are left out

`pack` and `seal` report success for an input of which their walks saw only a part. When every
regular file has its one entry can be told from the input and the faults alone.
-/
namespace QCap.LeftOut

open QCap.Text QCap.PathTree QCap.Crypto QCap.Formats QCap.Identity QCap.IssuerCommands
open QCap.InputTree
open QCap.HostArchive QCap.HostPack QCap.HostSeal QCap.QuietHost QCap.SealRoundTrip

variable (C : Primitives) (J : JsonCodec)

theorem no_file_left_out :
    (∀ (r : HostPackRequest) (calls : Calls), packHost C J r = (.ok (), some calls) →
      ((∀ p, r.input.Regular p → PackedOnce some calls.made p) ↔
        ∀ p, r.input.Regular p → PackDelivers r p)) ∧
    ∀ (r : HostSealRequest) (calls : Calls), sealHost C J r = (.ok (), some calls) →
      ((∀ p, r.input.Regular p → PackedOnce (sealOrigin C r) calls.made p) ↔
        ∀ p, r.input.Regular p → SealDelivers r p) := by
  constructor
  · intro r calls h
    apply forall_congr'
    intro p
    apply imp_congr_right
    intro hp
    exact packHost_packedOnce h hp
  · intro r calls h
    exact sealHost_packedOnce h

def plainRequest : PackRequest where
  inputDir := sampleDir
  key := .ok (asBytes (hexEncode signerKey.val))
  passphrase := noPassphrase
  now := 1700000000

theorem plainRequest_packed :
    ∃ calls, packHost toy sampleCodec (hostPackRequest plainRequest) =
      (.ok (), some ⟨calls, none⟩) := by
  have hquiet := packHost_quiet (C := toy) (J := sampleCodec) plainRequest
  rw [packPlain, show signingKeyFromFile toy sampleCodec plainRequest.key plainRequest.passphrase
    = .ok signerKey from signingKeyFromFile_hex toy sampleCodec signerKey noPassphrase] at hquiet
  obtain ⟨calls, hpack, -⟩ := hquiet
  exact ⟨calls, hpack⟩

theorem sampleSeal_sealed :
    ∃ calls, sealHost toy sampleCodec (hostSealRequest sampleSeal) =
      (.ok (), some ⟨calls, none⟩) := by
  have hquiet := sealHost_quiet (C := toy) (J := sampleCodec) sampleSeal
  rw [sampleZip_sealed] at hquiet
  obtain ⟨calls, hseal, -⟩ := hquiet
  exact ⟨calls, hseal⟩

theorem no_file_left_out_sample :
    (∃ calls, packHost toy sampleCodec (hostPackRequest plainRequest) = (.ok (), some calls) ∧
      ((∀ p, (hostPackRequest plainRequest).input.Regular p → PackedOnce some calls.made p) ↔
        ∀ p, (hostPackRequest plainRequest).input.Regular p →
          PackDelivers (hostPackRequest plainRequest) p)) ∧
    ∃ calls, sealHost toy sampleCodec (hostSealRequest sampleSeal) = (.ok (), some calls) ∧
      ((∀ p, (hostSealRequest sampleSeal).input.Regular p →
          PackedOnce (sealOrigin toy (hostSealRequest sampleSeal)) calls.made p) ↔
        ∀ p, (hostSealRequest sampleSeal).input.Regular p →
          SealDelivers (hostSealRequest sampleSeal) p) := by
  obtain ⟨packed, hpack⟩ := plainRequest_packed
  obtain ⟨stored, hseal⟩ := sampleSeal_sealed
  exact ⟨⟨_, hpack, (no_file_left_out toy sampleCodec).1 _ _ hpack⟩,
    ⟨_, hseal, (no_file_left_out toy sampleCodec).2 _ _ hseal⟩⟩

def unlistedPass : Pass :=
  { Pass.quiet with lost := fun p => (bytePath ["d"]).isPrefixOf p && decide (p ≠ bytePath ["d"]) }

def unlistedRequest : HostPackRequest :=
  { hostPackRequest plainRequest with hashing := unlistedPass, archiving := unlistedPass }

/-- The command succeeds, and `d/b` has no entry. -/
theorem unlisted_file_left_out :
    ∃ calls, packHost toy sampleCodec unlistedRequest = (.ok (), some calls) ∧
      unlistedRequest.input.Regular (bytePath ["d", "b"]) ∧
      ¬ PackedOnce some calls.made (bytePath ["d", "b"]) := by
  obtain ⟨root, hroot⟩ : ∃ root, unlistedRequest.input.computeRoot unlistedRequest.hashing
      toy.blake3 = .ok root := HostInput.computeRoot_readable (fun _ => rfl) toy.blake3
  have hopened : Opened toy sampleCodec unlistedRequest root signerKey unlistedRequest.input :=
    ⟨hroot, signingKeyFromFile_hex toy sampleCodec signerKey noPassphrase, rfl⟩
  have hplan := packCalls_ok.mpr ⟨_, _, _, hopened, rfl⟩
  have hwalk : unlistedRequest.input.walkFiles unlistedRequest.archiving = [bytePath ["a"]] := by
    decide +kernel
  have hfile : fileCalls unlistedRequest.input unlistedRequest.archiving (bytePath ["a"]) =
      (fileMember (["a"], [1])).calls.map .ok := by
    have hread : unlistedRequest.input.file? (bytePath ["a"]) = some ⟨[1], false⟩ := by
      exact (file?_ofTree sampleDir ["a"]).trans (by decide)
    rw [fileCalls, archiveName_bytePath, hread]
    rfl
  have hregular : unlistedRequest.input.Regular (bytePath ["d", "b"]) :=
    ⟨ofTree sampleDir, ⟨[2], false⟩, rfl,
      (file?_ofTree sampleDir ["d", "b"]).trans (by decide), rfl⟩
  obtain ⟨calls, hpack⟩ : ∃ calls, packHost toy sampleCodec unlistedRequest =
      (.ok (), some calls) := by
    rw [packHost, hplan, archiveCalls, hwalk, List.flatMap_singleton, hfile,
      show [Except.ok ZipCall.finish] = ([ZipCall.finish].map .ok : List (Result ZipCall)) from rfl,
      ← List.map_append, ← List.map_append]
    exact ⟨_, writeArchive_quiet _⟩
  refine ⟨calls, hpack, hregular, ?_⟩
  rw [packHost_packedOnce hpack hregular]
  intro hdel
  exact absurd hdel.reached (by decide)

end QCap.LeftOut

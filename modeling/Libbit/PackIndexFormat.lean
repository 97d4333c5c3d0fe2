import Libbit.Pack
import Libbit.PackIndexSpec

/-! Writing and reading of a whole pack index (`pack.rs`). -/
namespace Libbit
namespace Packfile

open Lib Lib.Reader
open IndexFile (writeU32 readOid readU32_decodes readOid_decodes)

namespace PackIndex

/-- The lists of an index are as long as its fanout says, and its oids are in order. -/
structure WellFormed (p : PackIndex) : Prop where
  sorted : p.oids.Pairwise (· < ·)
  oids : p.oids.length = (p.fanout 255).toNat
  crcs : p.crcs.length = (p.fanout 255).toNat
  offsets : p.offsets.length = (p.fanout 255).toNat

theorem parse_decodes {p : PackIndex} (h : p.WellFormed) : Decodes parse p.body p := by
  have htext : p.body = (writeU32 PACK_IDX_MAGIC++writeU32 2)++(((List.finRange 256).flatMap fun b => writeU32 (p.fanout b))++
      (p.oids.flatMap IndexFile.Oid.bytes++(p.crcs.flatMap writeU32++(p.offsets.flatMap writeU32++p.packHash.bytes)))) := by
    simp only [body,FANOUT_ENTRYC,List.append_assoc]
  have hoids : Decodes (times readOid (p.fanout 255).toNat) (p.oids.flatMap IndexFile.Oid.bytes) p.oids := by
    rw [← h.oids]
    exact Decodes.times fun o _ => readOid_decodes o
  have hcrcs : Decodes (times IndexFile.readU32 (p.fanout 255).toNat) (p.crcs.flatMap writeU32) p.crcs := by
    rw [← h.crcs]
    exact Decodes.times fun u _ => readU32_decodes u
  have hoffsets : Decodes (times IndexFile.readU32 (p.fanout 255).toNat) (p.offsets.flatMap writeU32) p.offsets := by
    rw [← h.offsets]
    exact Decodes.times fun u _ => readU32_decodes u
  rw [htext]
  refine parseHeader_decodes.bind <| (readFanout_decodes p.fanout).bind <| hoids.bind <|
    (Decodes.require (h.sorted.imp le_of_lt)).andThen <| hcrcs.bind <| hoffsets.bind ?_
  exact (readOid_decodes p.packHash).bindPure (Decodes.pure p)

/-- What is written of a well formed index is read back, whatever the hash function. -/
theorem deserialize_serialize (sha1 : Bytes → Oid) {p : PackIndex} (h : p.WellFormed) :
    deserialize sha1 (p.serialize sha1) = .ok p := by
  have hparse := (parse_decodes h).run (sha1 p.body).bytes
  have hhash := (readOid_decodes (sha1 p.body)).run []
  have htake : (p.body++(sha1 p.body).bytes).take ((p.body++(sha1 p.body).bytes).length-(sha1 p.body).bytes.length) = p.body := by
    rw [List.length_append,Nat.add_sub_cancel,List.take_left]
  rw [List.append_nil] at hhash
  rw [deserialize,serialize,hparse]
  change (readOid.run (sha1 p.body).bytes >>= _) = _
  rw [hhash,htake]
  change (ensure _ (sha1 p.body = sha1 p.body) >>= fun _ => ensure _ ([] = []) >>= fun _ => pure p) = _
  rw [ensure,if_pos rfl]
  rfl

/-- The index of these oids with the fanout that is built for them. -/
def ofLists (oids : List Oid) (crcs offsets : List UInt32) (packHash : Oid) : PackIndex :=
  ⟨fun b => UInt32.ofNat (buildFanout oids b),oids,crcs,offsets,packHash⟩

theorem ofLists_wellFormed {oids : List Oid} {crcs offsets : List UInt32} (hsorted : oids.Pairwise (· < ·))
    (hsmall : oids.length < 2^32) (hcrcs : crcs.length = oids.length) (hoffsets : offsets.length = oids.length)
    (packHash : Oid) : (ofLists oids crcs offsets packHash).WellFormed := by
  have hlast : ((ofLists oids crcs offsets packHash).fanout 255).toNat = oids.length :=
    (toNat_buildFanout hsmall 255).trans (upTo_last oids)
  exact ⟨hsorted,hlast.symm,hcrcs.trans hlast.symm,hoffsets.trans hlast.symm⟩

/-- The position of the first oid of a bucket. -/
def bucketStart (p : PackIndex) (k : Byte) : ℕ := if k = 0 then 0 else (p.fanout (k-1)).toNat

def bucketEnd (p : PackIndex) (k : Byte) : ℕ := (p.fanout k).toNat

section
variable {oids : List Oid} (crcs offsets : List UInt32) (packHash : Oid) (k : Byte)

theorem bucketStart_ofLists (hsmall : oids.length < 2^32) : (ofLists oids crcs offsets packHash).bucketStart k = below oids k := by
  rw [bucketStart]
  split
  · rename_i hk
    rw [hk,below_zero]
  · rename_i hk
    rw [← upTo_pred oids hk]
    exact toNat_buildFanout hsmall (k-1)

theorem bucketEnd_ofLists (hsmall : oids.length < 2^32) : (ofLists oids crcs offsets packHash).bucketEnd k = upTo oids k :=
  toNat_buildFanout hsmall k

end

/-- The file gives the index back, and the fanout bounds the oids with each first byte. -/
theorem packIndex_roundTrip (sha1 : Bytes → Oid) (oids : List Oid) (crcs offsets : List UInt32) (packHash : Oid)
    (hsorted : oids.Pairwise (· < ·)) (hsmall : oids.length < 2^32) (hcrcs : crcs.length = oids.length)
    (hoffsets : offsets.length = oids.length) :
    let p := ofLists oids crcs offsets packHash
    deserialize sha1 (p.serialize sha1) = .ok p ∧
      ∀ k, p.bucketStart k ≤ p.bucketEnd k ∧ p.bucketEnd k ≤ oids.length ∧
        (oids.drop (p.bucketStart k)).take (p.bucketEnd k-p.bucketStart k) = oids.filter (·.first = k) := by
  refine ⟨deserialize_serialize sha1 (ofLists_wellFormed hsorted hsmall hcrcs hoffsets packHash),fun k => ?_⟩
  rw [bucketStart_ofLists crcs offsets packHash k hsmall,bucketEnd_ofLists crcs offsets packHash k hsmall]
  have hfirst : oids.Pairwise fun a b => a.first ≤ b.first := hsorted.imp fun h => Oid.first_mono h.le
  refine ⟨?_,upTo_le oids k,stretch_eq_filter hfirst k⟩
  rw [upTo_eq]
  exact Nat.le_add_right _ _

/-- Two oids with the first byte 0 and one with the first byte 255. -/
def sampleOids : List Oid := [.UNKNOWN,⟨List.replicate 19 0++[1],rfl⟩,⟨List.replicate 20 255,rfl⟩]

theorem packIndex_roundTrip_sample :
    let p := ofLists sampleOids [1,2,3] [12,40,0x7fffffff] .UNKNOWN
    deserialize (fun _ => .UNKNOWN) (p.serialize fun _ => .UNKNOWN) = .ok p ∧
      sampleOids.filter (·.first = 255) = [⟨List.replicate 20 255,rfl⟩] := by
  obtain ⟨hread,-⟩ := packIndex_roundTrip (fun _ => .UNKNOWN) sampleOids [1,2,3] [12,40,0x7fffffff] .UNKNOWN
    (by decide) (by decide) rfl rfl
  exact ⟨hread,by decide⟩

end PackIndex
end Packfile
end Libbit

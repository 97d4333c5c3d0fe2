import Libbit.Lib.Chase
import Libbit.DeltaUntrusted
import Libbit.PackRead

/-! Chains of deltas in any pack with any index. Reading an object and reading a header follow the bases in one
way: a record is whole, or it refers to its base by a distance or by an oid. -/
namespace Libbit
namespace Packfile

open Lib
open IndexFile (Parser readOid)
open Relation

/-- What there is at an offset. -/
inductive Record (α β : Type)
  | whole (a : α)
  | ofs (distance : ℕ) (b : β)
  | ref (oid : Oid) (b : β)

/-- How a chain is read, with the objects that are known already. -/
structure Resolver (α β : Type) where
  record : Parser (Record α β)
  cached : (ℕ → Option BitPackObjRaw) → ℕ → Option α
  finish : β → α → Except Error α
  keep : ℕ → α → Pack → Pack

namespace Resolver
variable {α β : Type} (R : Resolver α β)

/-- Where the base is. -/
def base (offset : ℕ) : Record α β → Read (α ⊕ ℕ × β)
  | .whole a => do
    modify (R.keep offset a)
    pure (.inl a)
  | .ofs distance b => do
    let base ← Pack.liftExcept (Pack.sub offset distance)
    pure (.inr (base,b))
  | .ref oid b => do
    let base ← Pack.objOffset oid
    pure (.inr (base,b))

def look (offset : ℕ) : Read (α ⊕ ℕ × β) := do
  let p ← get
  match R.cached p.packObjCache offset with
  | some a => pure (.inl a)
  | none =>
    Pack.seek offset
    let record ← Pack.parse R.record
    R.base offset record

def resolve : ℕ → ℕ → Read α := chase R.look R.finish R.keep (.other .outOfFuel)

end Resolver

/-! ### Objects and headers -/

def BitPackObjRawDeltified.toRecord : BitPackObjRawDeltified → Record BitPackObjRaw Bytes
  | .Raw raw => .whole raw
  | .Ofs distance delta => .ofs distance delta
  | .Ref oid delta => .ref oid delta

def objectRecord (zlib : Parser Bytes) : Parser (Record BitPackObjRaw Bytes) := do
  let raw ← readPackObj zlib
  pure raw.toRecord

/-- The delta of a record is applied to its base. -/
def objects (zlib : Parser Bytes) : Resolver BitPackObjRaw Bytes where
  record := objectRecord zlib
  cached cache offset := cache offset
  finish delta base := (base.expandWithDeltaBytes delta).mapError .other
  keep offset obj p := { p with packObjCache := Function.update p.packObjCache offset (some obj) }

def headerRecord : Parser (Record BitObjHeader ℕ) := do
  let header ← readPackObjHeader
  match header.objType with
  | .OfsDelta =>
    let distance ← readOffset
    pure (.ofs distance header.size)
  | .RefDelta =>
    let oid ← readOid
    pure (.ref oid header.size)
  | _ =>
    let objType ← header.objType.toObjType
    pure (.whole ⟨objType,header.size⟩)

/-- The type of an object is that of its base. -/
def headers : Resolver BitObjHeader ℕ where
  record := headerRecord
  cached _ _ := none
  finish size base := .ok ⟨base.objType,size⟩
  keep _ _ p := p

/-! ### One look -/

namespace Resolver
variable {α β : Type} {R : Resolver α β} {offset distance : ℕ} {s : Pack} {rest : Bytes} {a : α} {b : β} {oid : Oid}

theorem look_cached (h : R.cached s.packObjCache offset = some a) : R.look offset s = .ok (.inl a) s := by
  rw [look,run_getBind]
  simp only [h]
  rfl

theorem look_error {e : IndexFile.Error} (hcache : R.cached s.packObjCache offset = none)
    (h : R.record.run (s.file.drop offset) = .error e) :
    R.look offset s = .error (.other e) { s with reader := s.file.drop offset } := by
  rw [look,run_getBind]
  simp only [hcache]
  change (Pack.parse R.record >>= _) { s with reader := s.file.drop offset } = _
  apply bind_of_error
  simp only [Pack.parse,run_getBind,h]
  rfl

theorem look_record {r : Record α β} (hcache : R.cached s.packObjCache offset = none)
    (h : R.record.run (s.file.drop offset) = .ok (r,rest)) : R.look offset s = R.base offset r { s with reader := rest } := by
  rw [look,run_getBind]
  simp only [hcache]
  change (Pack.parse R.record >>= _) { s with reader := s.file.drop offset } = _
  have hparse : Pack.parse R.record { s with reader := s.file.drop offset } = .ok r { s with reader := rest } := by
    simp only [Pack.parse,run_getBind,h]
    rfl
  exact bind_of_ok hparse

theorem base_ofs (hle : distance ≤ offset) : R.base offset (.ofs distance b) s = .ok (.inr (offset-distance,b)) s := by
  simp only [base,Pack.sub,if_pos hle]
  rfl

theorem base_underflow (hlt : ¬distance ≤ offset) :
    R.base offset (.ofs distance b) s = .error (.other (.panic "attempt to subtract with overflow")) s := by
  simp only [base,Pack.sub,if_neg hlt]
  rfl

theorem base_ref_ok {x : UInt32 × ℕ} {r : PackIndexReader} (h : PackIndexReader.findOidCrcOffset oid s.idxReader = .ok x r) :
    R.base offset (.ref oid b) s = .ok (.inr (x.2,b)) { s with idxReader := r } := by
  have hidx : Pack.objOffset oid s = .ok x.2 { s with idxReader := r } := by
    simp only [Pack.objOffset,Pack.objCrcOffset,Pack.idx,bind,EStateM.bind,h]
    rfl
  exact bind_of_ok hidx

theorem base_ref_error {e : Error} {r : PackIndexReader}
    (h : PackIndexReader.findOidCrcOffset oid s.idxReader = .error e r) :
    R.base offset (.ref oid b) s = .error e { s with idxReader := r } := by
  have hidx : Pack.objOffset oid s = .error e { s with idxReader := r } := by
    simp only [Pack.objOffset,Pack.objCrcOffset,Pack.idx,bind,EStateM.bind,h]
  exact bind_of_error hidx

end Resolver

/-! ### What was looked up stays -/

namespace PackIndexReader
variable {cache : Oid → Option (UInt32 × ℕ)} {oid : Oid}

/-- The answers that are kept are the same. -/
abbrev Kept (cache : Oid → Option (UInt32 × ℕ)) {α : Type} (m : Lookup α) : Prop :=
  Keeps (fun r => r.crcOffsetCache = cache) (fun _ => True) m

theorem kept_readAt {α : Type} (offset : ℕ) (p : Parser α) : Kept cache (readAt offset p) := by
  refine Keeps.getBind fun r hr => ?_
  split
  · exact Keeps.pure _
  · exact Keeps.throw trivial

theorem kept_assertThat (condition : String) (c : Prop) [Decidable c] : Kept cache (assertThat condition c) :=
  Keeps.ite (fun _ => Keeps.pure _) fun _ => Keeps.throw trivial

theorem kept_readFrom {α : Type} (p : Parser α) (layer : Layer) (index : ℕ) : Kept cache (readFrom p layer index) :=
  Keeps.bind (Keeps.seq (kept_assertThat _ _) (Keeps.getBind fun _ _ => Keeps.pure _)) fun _ => kept_readAt _ p

theorem kept_search (low : ℕ) (oids : List Oid) : Kept cache (search oid low oids) := by
  unfold search
  split
  · exact Keeps.pure _
  · exact Keeps.throw trivial

theorem kept_readBucket (low high : ℕ) : Kept cache (readBucket low high) := by
  unfold readBucket
  split
  · exact Keeps.seq (Keeps.throw trivial) (Keeps.getBind fun r _ => by split; exacts [Keeps.pure _,Keeps.throw trivial])
  · refine Keeps.getBind fun r _ => ?_
    split
    · exact Keeps.pure _
    · exact Keeps.throw trivial

theorem kept_findOidIndex : Kept cache (findOidIndex oid) := by
  refine Keeps.getBind fun r _ => ?_
  dsimp only
  split
  · exact kept_search _ _
  · exact Keeps.bind (kept_readBucket _ _) fun _ => Keeps.seq (Keeps.modify fun _ h => h) (kept_search _ _)

theorem kept_inner (oid : Oid) : Kept cache (findOidCrcOffsetInner oid) := by
  refine Keeps.bind kept_findOidIndex fun index => Keeps.bind (kept_readFrom _ _ _) fun there => ?_
  refine Keeps.seq (kept_assertThat _ _) (Keeps.bind (kept_readFrom _ _ _) fun crc => ?_)
  refine Keeps.bind (kept_readFrom _ _ _) fun offset => Keeps.ite (fun _ => ?_) fun _ => Keeps.pure _
  exact Keeps.bind (kept_readFrom _ _ _) fun _ => Keeps.pure _

theorem findOidCrcOffset_cached {r : PackIndexReader} {x : UInt32 × ℕ} (h : r.crcOffsetCache oid = some x) :
    findOidCrcOffset oid r = .ok x r := by
  rw [findOidCrcOffset,run_getBind]
  simp only [h]
  rfl

/-- The answer is kept, with all that were kept before. -/
theorem findOidCrcOffset_keeps {r r' : PackIndexReader} {x : UInt32 × ℕ} (h : findOidCrcOffset oid r = .ok x r') :
    r'.crcOffsetCache oid = some x ∧ ∀ o y, r.crcOffsetCache o = some y → r'.crcOffsetCache o = some y := by
  cases hcache : r.crcOffsetCache oid with
  | some y =>
    rw [findOidCrcOffset_cached hcache] at h
    cases h
    exact ⟨hcache,fun _ _ => id⟩
  | none =>
    rw [findOidCrcOffset,run_getBind] at h
    simp only [hcache] at h
    obtain ⟨y,t,hinner,h⟩ := bind_ok.mp h
    have hkept := kept_inner oid r rfl
    rw [hinner] at hkept
    cases h
    refine ⟨?_,fun o z ho => ?_⟩
    · simp
    · have hne : o ≠ oid := by
        rintro rfl
        rw [hcache] at ho
        cases ho
      simp only [Function.update_of_ne hne]
      rw [hkept]
      exact ho

end PackIndexReader

/-! ### Which chains are resolved -/

/-- The error is one that the code returns. -/
def Answered : Error → Prop
  | .objectNotFoundInPackIndex _ _ => True
  | .other e => Returned e

/-- What came before is known later. -/
structure Later (s t : Pack) : Prop where
  file : t.file = s.file
  cache : t.packObjCache = s.packObjCache
  index : ∀ oid x, s.idxReader.crcOffsetCache oid = some x → t.idxReader.crcOffsetCache oid = some x

theorem Later.trans {s t u : Pack} (h : Later s t) (h' : Later t u) : Later s u :=
  ⟨h'.file.trans h.file,h'.cache.trans h.cache,fun oid x hx => h'.index oid x (h.index oid x hx)⟩

namespace Resolver
variable {α β : Type} {R : Resolver α β} {s t : Pack} {offset i j : ℕ} {b : β}

/-- How an offset refers to another one. -/
inductive Base (R : Resolver α β) (s : Pack) (i : ℕ) (b : β) : Pack → ℕ → Prop
  | ofs {distance : ℕ} {rest : Bytes} (hrun : R.record.run (s.file.drop i) = .ok (.ofs distance b,rest)) (hle : distance ≤ i) :
      Base R s i b { s with reader := rest } (i-distance)
  | ref {oid : Oid} {rest : Bytes} {x : UInt32 × ℕ} {r : PackIndexReader}
      (hrun : R.record.run (s.file.drop i) = .ok (.ref oid b,rest))
      (hfind : PackIndexReader.findOidCrcOffset oid s.idxReader = .ok x r) :
      Base R s i b { s with reader := rest, idxReader := r } x.2

theorem refers_iff : Refers R.look (s,i) b (t,j) ↔ R.cached s.packObjCache i = none ∧ Base R s i b t j := by
  constructor
  · rintro ⟨h⟩
    cases hcache : R.cached s.packObjCache i with
    | some a =>
      rw [look_cached hcache] at h
      cases h
    | none =>
      refine ⟨rfl,?_⟩
      cases hrun : R.record.run (s.file.drop i) with
      | error e =>
        rw [look_error hcache hrun] at h
        cases h
      | ok r =>
        obtain ⟨record,rest⟩ := r
        rw [look_record hcache hrun] at h
        cases record with
        | whole a => cases h
        | ofs distance b' =>
          by_cases hle : distance ≤ i
          · rw [base_ofs hle] at h
            cases h
            exact .ofs hrun hle
          · rw [base_underflow hle] at h
            cases h
        | ref oid b' =>
          cases hfind : PackIndexReader.findOidCrcOffset oid s.idxReader with
          | error e r => cases h.symm.trans (base_ref_error hfind)
          | ok x r =>
            cases h.symm.trans (base_ref_ok hfind)
            exact .ref hrun hfind
  · rintro ⟨hcache,hbase⟩
    cases hbase with
    | ofs hrun hle => exact ⟨(look_record hcache hrun).trans (base_ofs hle)⟩
    | ref hrun hfind => exact ⟨(look_record hcache hrun).trans (base_ref_ok hfind)⟩

theorem settled (R : Resolver α β) : Settled R.look Later where
  refl _ := ⟨rfl,rfl,fun _ _ => id⟩
  trans := Later.trans
  moves h := by
    obtain ⟨-,hbase⟩ := refers_iff.mp h
    cases hbase with
    | ofs => exact ⟨rfl,rfl,fun _ _ => id⟩
    | ref _ hfind => exact ⟨rfl,rfl,(PackIndexReader.findOidCrcOffset_keeps hfind).2⟩
  again {s i b s' j t} h hlater := by
    obtain ⟨hcache,hbase⟩ := refers_iff.mp h
    cases hbase with
    | ofs hrun hle => exact ⟨_,refers_iff.mpr ⟨hlater.cache ▸ hcache,.ofs (hlater.file ▸ hrun) hle⟩⟩
    | ref hrun hfind =>
      have hknown := hlater.index _ _ (PackIndexReader.findOidCrcOffset_keeps hfind).1
      exact ⟨_,refers_iff.mpr ⟨hlater.cache ▸ hcache,.ref (hlater.file ▸ hrun) (PackIndexReader.findOidCrcOffset_cached hknown)⟩⟩

/-- A record that refers to a base is two bytes long at least. -/
def Long (R : Resolver α β) : Prop := ∀ bs record rest, R.record.run bs = .ok (record,rest) → (∀ a, record ≠ .whole a) → 2 ≤ bs.length

theorem Long.lt (hlong : R.Long) {c c' : Pack × ℕ} (h : Follows R.look c c') : c.2+1 < c.1.file.length := by
  obtain ⟨s,i⟩ := c
  obtain ⟨t,j⟩ := c'
  obtain ⟨b,h⟩ := h
  obtain ⟨-,hbase⟩ := refers_iff.mp h
  have hlen : 2 ≤ (s.file.drop i).length := by
    cases hbase with
    | ofs hrun => exact hlong _ _ _ hrun nofun
    | ref hrun => exact hlong _ _ _ hrun nofun
  rw [List.length_drop] at hlen
  change i+1 < s.file.length
  omega

theorem Long.mem (hlong : R.Long) (c₁ c₂ : Pack × ℕ) (hreach : ReflTransGen (Follows R.look) (s,i) c₁)
    (h : Follows R.look c₁ c₂) : c₁.2 ∈ Finset.range (s.file.length-1) := by
  have hlt := hlong.lt h
  have hfile : c₁.1.file = s.file := ((settled R).later hreach).file
  rw [hfile] at hlt
  rw [Finset.mem_range]
  omega

/-- The chain from an offset gives the decoders nothing that they panic on. -/
structure Sane (R : Resolver α β) (s : Pack) (offset : ℕ) : Prop where
  /-- No offset comes again. -/
  acyclic : Acyclic R.look (s,offset)
  distances : ∀ c, ReflTransGen (Follows R.look) (s,offset) c → R.cached c.1.packObjCache c.2 = none →
    ∀ distance b rest, R.record.run (c.1.file.drop c.2) = .ok (.ofs distance b,rest) → distance ≤ c.2
  records : ∀ c, ReflTransGen (Follows R.look) (s,offset) c → R.cached c.1.packObjCache c.2 = none →
    ∀ e, R.record.run (c.1.file.drop c.2) = .error e → Returned e
  lookups : ∀ c, ReflTransGen (Follows R.look) (s,offset) c → R.cached c.1.packObjCache c.2 = none →
    ∀ oid b rest, R.record.run (c.1.file.drop c.2) = .ok (.ref oid b,rest) →
      ∀ e r, PackIndexReader.findOidCrcOffset oid c.1.idxReader = .error e r → Answered e
  /-- What is made of a base. -/
  bases : ∀ c b c' base, ReflTransGen (Follows R.look) (s,offset) c → Refers R.look c b c' → Value R.look R.finish c' base →
    ∀ e, R.finish b base = .error e → Answered e

theorem sane_iff : Sane R s offset ↔ Acyclic R.look (s,offset) ∧ FailsWith R.look R.finish Answered (s,offset) := by
  constructor
  · intro h
    refine ⟨h.acyclic,fun c hreach e s' he => ?_,h.bases⟩
    obtain ⟨t,i⟩ := c
    cases hcache : R.cached t.packObjCache i with
    | some a =>
      rw [look_cached hcache] at he
      cases he
    | none =>
      cases hrun : R.record.run (t.file.drop i) with
      | error e' =>
        rw [look_error hcache hrun] at he
        cases he
        exact h.records _ hreach hcache e' hrun
      | ok r =>
        obtain ⟨record,rest⟩ := r
        rw [look_record hcache hrun] at he
        cases record with
        | whole a => cases he
        | ofs distance b =>
          rw [base_ofs (h.distances _ hreach hcache distance b rest hrun)] at he
          cases he
        | ref oid b =>
          cases hfind : PackIndexReader.findOidCrcOffset oid t.idxReader with
          | error e' r =>
            cases he.symm.trans (base_ref_error hfind)
            exact h.lookups _ hreach hcache oid b rest hrun _ r hfind
          | ok x r => cases he.symm.trans (base_ref_ok hfind)
  · rintro ⟨hacyclic,hfails⟩
    refine ⟨hacyclic,fun c hreach hcache distance b rest hrun => ?_,fun c hreach hcache e hrun => ?_,
      fun c hreach hcache oid b rest hrun e r hfind => ?_,hfails.finishes⟩
    · by_contra hlt
      exact hfails.looks c hreach _ _ ((look_record hcache hrun).trans (base_underflow hlt))
    · exact hfails.looks c hreach _ _ (look_error hcache hrun)
    · exact hfails.looks c hreach _ _ ((look_record hcache hrun).trans (base_ref_error hfind))

theorem resolve_returns_iff (hlong : R.Long) :
    (∃ fuel, ReturnsOr Answered (R.resolve fuel offset s)) ↔ R.Sane s offset := by
  rw [sane_iff]
  exact chase_returns_iff (c := (s,offset)) (settled R) id hlong.mem

/-- As many records as there are bytes are enough. -/
theorem Sane.returns (h : R.Sane s offset) (hlong : R.Long) (hfile : s.file ≠ []) :
    ReturnsOr Answered (R.resolve s.file.length offset s) := by
  obtain ⟨hacyclic,hfails⟩ := sane_iff.mp h
  have hends := hacyclic.endsIn _ hlong.mem
  rw [Finset.card_range] at hends
  exact hends.returns hfails (Nat.sub_lt (List.length_pos_iff.mpr hfile) Nat.one_pos)

end Resolver

/-! ### The records of a pack -/

theorem readVarintFrom_lt {n shift m : ℕ} {bs rest : Bytes} (h : readVarintFrom n shift bs = .ok (m,rest)) :
    rest.length < bs.length := by
  induction bs generalizing n shift with
  | nil => cases h
  | cons b bs ih =>
    rw [readVarintFrom] at h
    split at h
    · simp only at h
      split at h
      · exact (ih h).trans (Nat.lt_succ_self _)
      · cases h
        exact Nat.lt_succ_self _
    · cases h

theorem readPackObjHeader_lt {header : BitPackObjHeader} {bs rest : Bytes}
    (h : readPackObjHeader.run bs = .ok (header,rest)) : rest.length < bs.length := by
  obtain ⟨⟨ty,size⟩,mid,hvarint,h⟩ := Reader.bind_eq_ok h
  have hmid : mid.length < bs.length := by
    cases bs with
    | nil => cases hvarint
    | cons b bs =>
      rw [readLeVarintWithShift_cons (by decide)] at hvarint
      split at hvarint
      · obtain ⟨r,hmore,hvarint⟩ := except_bind_eq_ok.mp hvarint
        cases hvarint
        exact (readVarintFrom_lt hmore).trans (Nat.lt_succ_self _)
      · cases hvarint
        exact Nat.lt_succ_self _
  obtain ⟨objType,mid',htype,hpure⟩ := Reader.bind_eq_ok h
  obtain ⟨-,hmid'⟩ := Reader.orFail_eq_ok htype
  obtain ⟨-,hrest⟩ := Reader.pure_eq_ok hpure
  rw [hrest,hmid']
  exact hmid

theorem readOffset_ne_nil {n : ℕ} {bs rest : Bytes} (h : readOffset.run bs = .ok (n,rest)) : bs ≠ [] := by
  rintro rfl
  cases h

theorem readOid_ne_nil {oid : Oid} {bs rest : Bytes} (h : readOid.run bs = .ok (oid,rest)) : bs ≠ [] := by
  rintro rfl
  cases h

theorem long_of_header {header : BitPackObjHeader} {bs mid : Bytes} (h : readPackObjHeader.run bs = .ok (header,mid))
    (hne : mid ≠ []) : 2 ≤ bs.length := by
  have hlt := readPackObjHeader_lt h
  have hpos := List.length_pos_iff.mpr hne
  omega

theorem long_objects (zlib : Parser Bytes) : (objects zlib).Long := by
  intro bs record rest h hwhole
  obtain ⟨raw,mid,hraw,h⟩ := Reader.bind_eq_ok h
  obtain ⟨rfl,-⟩ := Reader.pure_eq_ok h
  obtain ⟨header,mid',hheader,hraw⟩ := Reader.bind_eq_ok hraw
  refine long_of_header hheader ?_
  split at hraw
  · obtain ⟨n,_,hoffset,-⟩ := Reader.bind_eq_ok hraw
    exact readOffset_ne_nil hoffset
  · obtain ⟨oid,_,hoid,-⟩ := Reader.bind_eq_ok hraw
    exact readOid_ne_nil hoid
  · obtain ⟨ty,m,-,hraw⟩ := Reader.bind_eq_ok hraw
    obtain ⟨bytes,m',-,hraw⟩ := Reader.bind_eq_ok hraw
    obtain ⟨rfl,-⟩ := Reader.pure_eq_ok hraw
    exact absurd rfl (hwhole _)

theorem long_headers : headers.Long := by
  intro bs record rest h hwhole
  obtain ⟨header,mid,hheader,h⟩ := Reader.bind_eq_ok h
  refine long_of_header hheader ?_
  split at h
  · obtain ⟨n,_,hoffset,-⟩ := Reader.bind_eq_ok h
    exact readOffset_ne_nil hoffset
  · obtain ⟨oid,_,hoid,-⟩ := Reader.bind_eq_ok h
    exact readOid_ne_nil hoid
  · obtain ⟨ty,m,-,h⟩ := Reader.bind_eq_ok h
    obtain ⟨rfl,-⟩ := Reader.pure_eq_ok h
    exact absurd rfl (hwhole _)

/-! ### The functions of the pack -/

/-- What an operation comes to, without the state after an error. -/
def landed {ε σ α : Type} : EStateM.Result ε σ α → Except ε (α × σ)
  | .ok a s => .ok (a,s)
  | .error e _ => .error e

theorem returnsOr_of_landed {ε σ α : Type} {E : ε → Prop} {r r' : EStateM.Result ε σ α} (h : landed r = landed r') :
    ReturnsOr E r ↔ ReturnsOr E r' := by
  cases r <;> cases r' <;> cases h <;> exact Iff.rfl

section Landed
variable {zlib : Parser Bytes} {s : Pack} {offset fuel : ℕ} {rest : Bytes}

open Pack Resolver

theorem readObjFromOffsetRaw_eq (zlib : Parser Bytes) (offset : ℕ) (s : Pack) : readObjFromOffsetRaw zlib offset s =
    match (readPackObj zlib).run (s.file.drop offset) with
    | .ok (raw,rest) => .ok raw { s with reader := rest }
    | .error e => .error (.other e) { s with reader := s.file.drop offset } := by
  change Pack.parse (readPackObj zlib) { s with reader := s.file.drop offset } = _
  simp only [Pack.parse,run_getBind]
  cases (readPackObj zlib).run (s.file.drop offset) <;> rfl

theorem readHeaderFromOffset_eq (offset : ℕ) (s : Pack) : readHeaderFromOffset offset s =
    match readPackObjHeader.run (s.file.drop offset) with
    | .ok (header,rest) => .ok header { s with reader := rest }
    | .error e => .error (.other e) { s with reader := s.file.drop offset } := by
  change Pack.parse readPackObjHeader { s with reader := s.file.drop offset } = _
  simp only [Pack.parse,run_getBind]
  cases readPackObjHeader.run (s.file.drop offset) <;> rfl

theorem objectRecord_ok {raw : BitPackObjRawDeltified} {bs : Bytes} (h : (readPackObj zlib).run bs = .ok (raw,rest)) :
    (objects zlib).record.run bs = .ok (raw.toRecord,rest) := by
  change ((readPackObj zlib).run bs >>= _) = _
  rw [h]
  rfl

theorem objectRecord_error {e : IndexFile.Error} {bs : Bytes} (h : (readPackObj zlib).run bs = .error e) :
    (objects zlib).record.run bs = .error e := by
  change ((readPackObj zlib).run bs >>= _) = _
  rw [h]
  rfl

/-- What is made of the base. -/
def finished {α β : Type} (R : Resolver α β) (b : β) (offset : ℕ) : EStateM.Result Error Pack α → EStateM.Result Error Pack α
  | .error e t => .error e t
  | .ok base t =>
    match R.finish b base with
    | .ok a => .ok a (R.keep offset a t)
    | .error e => .error e t

theorem landed_finished {α β : Type} (R : Resolver α β) (b : β) (offset : ℕ) {r r' : EStateM.Result Error Pack α}
    (h : landed r = landed r') : landed (finished R b offset r) = landed (finished R b offset r') := by
  cases r <;> cases r' <;> cases h <;> rfl

theorem resolve_found {α β : Type} {R : Resolver α β} {a : α} {t : Pack} (h : R.look offset s = .ok (.inl a) t) (fuel : ℕ) :
    R.resolve (fuel+1) offset s = .ok a t := chase_found h fuel

theorem resolve_failed {α β : Type} {R : Resolver α β} {e : Error} {t : Pack} (h : R.look offset s = .error e t) (fuel : ℕ) :
    R.resolve (fuel+1) offset s = .error e t := chase_failed h fuel

theorem resolve_refers {α β : Type} {R : Resolver α β} {b : β} {base : ℕ} {t : Pack}
    (h : R.look offset s = .ok (.inr (base,b)) t) (fuel : ℕ) :
    R.resolve (fuel+1) offset s = finished R b offset (R.resolve fuel base t) := by
  refine (chase_refers h fuel).trans ?_
  unfold resolve
  generalize chase R.look R.finish R.keep _ fuel base t = r
  cases r with
  | error e u => rfl
  | ok a u =>
    simp only [finished]
    cases R.finish b a <;> rfl

/-- The base was read, and the rest of the work is the same. -/
theorem expand_finished (m : Read BitPackObjRaw) (delta : Bytes) (s : Pack) :
    ((do let base ← m; liftExcept (base.expandWithDeltaBytes delta)) >>= fun expanded => do
      modify fun p : Pack => { p with packObjCache := Function.update p.packObjCache offset (some expanded) }
      pure expanded : Read BitPackObjRaw) s = finished (objects zlib) delta offset (m s) := by
  simp only [bind,EStateM.bind]
  cases m s with
  | error e t => rfl
  | ok base t =>
    simp only [finished,objects]
    cases base.expandWithDeltaBytes delta <;> rfl

theorem objOffset_eq (oid : Oid) (s : Pack) : objOffset oid s = match PackIndexReader.findOidCrcOffset oid s.idxReader with
    | .ok x r => .ok x.2 { s with idxReader := r }
    | .error e r => .error e { s with idxReader := r } := by
  simp only [objOffset,objCrcOffset,idx,bind,EStateM.bind]
  cases PackIndexReader.findOidCrcOffset oid s.idxReader <;> rfl

theorem readObjRawAt_landed (zlib : Parser Bytes) (fuel offset : ℕ) (s : Pack) :
    landed (readObjRawAt zlib fuel offset s) = landed ((objects zlib).resolve fuel offset s) := by
  induction fuel generalizing offset s with
  | zero => rfl
  | succ fuel ih =>
    cases hcache : s.packObjCache offset with
    | some obj => rw [TabledPack.Sound.readObjRawAt_cached hcache,resolve_found (look_cached hcache)]
    | none =>
      have hread := readObjFromOffsetRaw_eq zlib offset s
      have hstep : readObjRawAt zlib (fuel+1) offset s =
          (readObjFromOffsetRaw zlib offset >>= TabledPack.Sound.expandAndKeep zlib fuel offset) s := by
        rw [readObjRawAt,run_getBind]
        simp only [hcache]
        rfl
      rw [hstep]
      cases hrun : (readPackObj zlib).run (s.file.drop offset) with
      | error e =>
        rw [hrun] at hread
        rw [bind_of_error hread,resolve_failed (look_error hcache (objectRecord_error hrun))]
      | ok r =>
        obtain ⟨raw,rest⟩ := r
        rw [hrun] at hread
        have hlook := look_record hcache (objectRecord_ok hrun)
        rw [bind_of_ok hread]
        cases raw with
        | Raw obj =>
          rw [resolve_found hlook]
          rfl
        | Ofs distance delta =>
          by_cases hle : distance ≤ offset
          · have hexpand : TabledPack.Sound.expandAndKeep zlib fuel offset (.Ofs distance delta) { s with reader := rest } =
                finished (objects zlib) delta offset (readObjRawAt zlib fuel (offset-distance) { s with reader := rest }) := by
              rw [← expand_finished]
              simp only [TabledPack.Sound.expandAndKeep,expandRawObj,sub,if_pos hle]
              rfl
            rw [hexpand,resolve_refers (hlook.trans (base_ofs hle))]
            exact landed_finished _ delta offset (ih _ _)
          · rw [resolve_failed (hlook.trans (base_underflow hle))]
            simp only [TabledPack.Sound.expandAndKeep,expandRawObj,sub,if_neg hle]
            rfl
        | Ref oid delta =>
          have hexpand : TabledPack.Sound.expandAndKeep zlib fuel offset (.Ref oid delta) { s with reader := rest } =
              (objOffset oid >>= fun base => (do
                let base ← readObjRawAt zlib fuel base
                liftExcept (base.expandWithDeltaBytes delta)) >>= fun expanded => do
                  modify fun p : Pack => { p with packObjCache := Function.update p.packObjCache offset (some expanded) }
                  pure expanded : Read BitPackObjRaw) { s with reader := rest } := by
            simp only [TabledPack.Sound.expandAndKeep,expandRawObj,bind_assoc]
          have hoffset := objOffset_eq oid { s with reader := rest }
          rw [hexpand]
          cases hfind : PackIndexReader.findOidCrcOffset oid s.idxReader with
          | error e r =>
            rw [hfind] at hoffset
            rw [bind_of_error hoffset,resolve_failed (hlook.trans (base_ref_error hfind))]
          | ok x r =>
            rw [hfind] at hoffset
            rw [bind_of_ok hoffset,expand_finished,resolve_refers (hlook.trans (base_ref_ok hfind))]
            exact landed_finished _ delta offset (ih _ _)

theorem parse_eq {α : Type} (p : Parser α) (s : Pack) : Pack.parse p s = match p.run s.reader with
    | .ok (a,rest) => .ok a { s with reader := rest }
    | .error e => .error (.other e) s := by
  simp only [Pack.parse,run_getBind]
  cases p.run s.reader <;> rfl

theorem header_finished (m : Read BitObjHeader) (size : ℕ) (s : Pack) :
    (m >>= fun base => pure (⟨base.objType,size⟩ : BitObjHeader)) s = finished headers size offset (m s) := by
  simp only [bind,EStateM.bind]
  cases m s <;> rfl

theorem readObjHeaderAt_landed (fuel offset : ℕ) (s : Pack) :
    landed (readObjHeaderAt fuel offset s) = landed (headers.resolve fuel offset s) := by
  induction fuel generalizing offset s with
  | zero => rfl
  | succ fuel ih =>
    have hread := readHeaderFromOffset_eq offset s
    have hrecord {bs : Bytes} : headers.record.run bs = readPackObjHeader.run bs >>= fun r => (match r.1.objType with
        | .OfsDelta => do
          let distance ← readOffset
          pure (.ofs distance r.1.size)
        | .RefDelta => do
          let oid ← readOid
          pure (.ref oid r.1.size)
        | _ => do
          let objType ← r.1.objType.toObjType
          pure (.whole ⟨objType,r.1.size⟩) : Parser (Record BitObjHeader ℕ)).run r.2 := rfl
    cases hrun : readPackObjHeader.run (s.file.drop offset) with
    | error e =>
      rw [hrun] at hread
      have herror : headers.record.run (s.file.drop offset) = .error e := by
        rw [hrecord,hrun]
        rfl
      rw [readObjHeaderAt,bind_of_error hread,resolve_failed (look_error rfl herror)]
    | ok r =>
      obtain ⟨⟨ty,size⟩,rest⟩ := r
      rw [hrun] at hread
      have hrest : headers.record.run (s.file.drop offset) = _ := hrecord.trans (by rw [hrun])
      rw [readObjHeaderAt,bind_of_ok hread]
      have hwhole {objType : BitObjType} (h : ty.whole? = some objType)
          (hr : headers.record.run (s.file.drop offset) = .ok (.whole ⟨objType,size⟩,rest)) :
          landed (headers.resolve (fuel+1) offset s) = .ok (⟨objType,size⟩,{ s with reader := rest }) := by
        rw [resolve_found (look_record rfl hr)]
        rfl
      cases ty with
      | OfsDelta =>
        have hparse := parse_eq readOffset { s with reader := rest }
        cases hoffset : readOffset.run rest with
        | error e =>
          have herror : headers.record.run (s.file.drop offset) = .error e := by
            rw [hrest]
            change (readOffset.run rest >>= _) = _
            rw [hoffset]
            rfl
          simp only [hoffset] at hparse
          change landed ((parse readOffset >>= _) _) = _
          rw [bind_of_error hparse,resolve_failed (look_error rfl herror)]
          rfl
        | ok r =>
          obtain ⟨distance,rest'⟩ := r
          have hofs : headers.record.run (s.file.drop offset) = .ok (.ofs distance size,rest') := by
            rw [hrest]
            change (readOffset.run rest >>= _) = _
            rw [hoffset]
            rfl
          simp only [hoffset] at hparse
          change landed ((parse readOffset >>= _) _) = _
          rw [bind_of_ok hparse]
          by_cases hle : distance ≤ offset
          · have hsub : (liftExcept (sub offset distance) : Read ℕ) { s with reader := rest' } =
                .ok (offset-distance) { s with reader := rest' } := by
              rw [sub,if_pos hle]
              rfl
            rw [bind_of_ok hsub,resolve_refers ((look_record rfl hofs).trans (base_ofs hle)),header_finished]
            exact landed_finished _ size offset (ih _ _)
          · have hsub : (liftExcept (sub offset distance) : Read ℕ) { s with reader := rest' } =
                .error (.other (.panic "attempt to subtract with overflow")) { s with reader := rest' } := by
              rw [sub,if_neg hle]
              rfl
            rw [bind_of_error hsub,resolve_failed ((look_record rfl hofs).trans (base_underflow hle))]
      | RefDelta =>
        have hparse := parse_eq readOid { s with reader := rest }
        cases hoid : readOid.run rest with
        | error e =>
          have herror : headers.record.run (s.file.drop offset) = .error e := by
            rw [hrest]
            change (readOid.run rest >>= _) = _
            rw [hoid]
            rfl
          simp only [hoid] at hparse
          change landed ((parse readOid >>= _) _) = _
          rw [bind_of_error hparse,resolve_failed (look_error rfl herror)]
          rfl
        | ok r =>
          obtain ⟨oid,rest'⟩ := r
          have href : headers.record.run (s.file.drop offset) = .ok (.ref oid size,rest') := by
            rw [hrest]
            change (readOid.run rest >>= _) = _
            rw [hoid]
            rfl
          simp only [hoid] at hparse
          change landed ((parse readOid >>= _) _) = _
          rw [bind_of_ok hparse]
          have hoffset := objOffset_eq oid { s with reader := rest' }
          cases hfind : PackIndexReader.findOidCrcOffset oid s.idxReader with
          | error e r =>
            rw [hfind] at hoffset
            rw [bind_of_error hoffset,resolve_failed ((look_record rfl href).trans (base_ref_error hfind))]
          | ok x r =>
            rw [hfind] at hoffset
            rw [bind_of_ok hoffset,resolve_refers ((look_record rfl href).trans (base_ref_ok hfind)),header_finished]
            exact landed_finished _ size offset (ih _ _)
      | Commit => exact (hwhole rfl hrest).symm
      | Tree => exact (hwhole rfl hrest).symm
      | Blob => exact (hwhole rfl hrest).symm
      | Tag => exact (hwhole rfl hrest).symm

end Landed

/-! ### All that a pack is asked for -/

section Asked
variable {zlib : Parser Bytes} {α β : Type} {R : Resolver α β} {s : Pack} {offset : ℕ} {oid : Oid}

open Pack Resolver

/-- What the index says of the oid is no harm, nor is the chain from there. -/
def Resolver.SaneNamed (R : Resolver α β) (s : Pack) (oid : Oid) : Prop :=
  match PackIndexReader.findOidCrcOffset oid s.idxReader with
  | .ok x r => R.Sane { s with idxReader := r } x.2
  | .error e _ => Answered e

theorem named_returns_iff {read : ℕ → ℕ → Read α} (hread : ∀ fuel offset s, landed (read fuel offset s) = landed (R.resolve fuel offset s))
    (hlong : R.Long) : (∃ fuel, ReturnsOr Answered ((objOffset oid >>= read fuel) s)) ↔ R.SaneNamed s oid := by
  have hoffset := objOffset_eq oid s
  unfold SaneNamed
  cases hfind : PackIndexReader.findOidCrcOffset oid s.idxReader with
  | error e r =>
    rw [hfind] at hoffset
    simp only [bind_of_error hoffset]
    exact ⟨fun ⟨_,h⟩ => h,fun h => ⟨0,h⟩⟩
  | ok x r =>
    rw [hfind] at hoffset
    simp only [bind_of_ok hoffset,returnsOr_of_landed (hread _ _ _)]
    exact resolve_returns_iff hlong

/-- As many records as the pack has bytes are enough. -/
theorem named_length_iff {read : ℕ → ℕ → Read α} (hread : ∀ fuel offset s, landed (read fuel offset s) = landed (R.resolve fuel offset s))
    (hlong : R.Long) (hfile : s.file ≠ []) :
    ReturnsOr Answered ((objOffset oid >>= fun offset => get >>= fun p : Pack => read p.file.length offset) s) ↔ R.SaneNamed s oid := by
  have hoffset := objOffset_eq oid s
  unfold SaneNamed
  cases hfind : PackIndexReader.findOidCrcOffset oid s.idxReader with
  | error e r =>
    rw [hfind] at hoffset
    rw [bind_of_error hoffset]
    exact Iff.rfl
  | ok x r =>
    rw [hfind] at hoffset
    rw [bind_of_ok hoffset,run_getBind,returnsOr_of_landed (hread _ _ _)]
    exact ⟨fun h => (resolve_returns_iff hlong).mp ⟨_,h⟩,fun h => h.returns hlong hfile⟩

theorem readObjRaw_returns_iff (hfile : s.file ≠ []) :
    ReturnsOr Answered (readObjRaw zlib oid s) ↔ (objects zlib).SaneNamed s oid :=
  named_length_iff (readObjRawAt_landed zlib) (long_objects zlib) hfile

theorem readObjHeader_returns_iff (hfile : s.file ≠ []) : ReturnsOr Answered (readObjHeader oid s) ↔ headers.SaneNamed s oid :=
  named_length_iff readObjHeaderAt_landed long_headers hfile

end Asked

/-- The record at 12 is a delta of itself. -/
def selfDelta : Pack where
  file := [0x50,0x41,0x43,0x4b,0,0,0,2,0,0,0,1]++[0x64,0x00]++[0x78,0x01,0x01]++[0x04,0x00,0xfb,0xff]++[0x01,0x01,0x01,0x62]++
    [0x00,0x6f,0x00,0x66]
  reader := []
  idxReader := ⟨[],fun _ => 0,fun _ => none,fun _ => none,0⟩
  packObjCache := fun _ => none

end Packfile
end Libbit

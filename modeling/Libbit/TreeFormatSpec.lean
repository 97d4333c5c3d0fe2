import Libbit.TreeFormat
import Libbit.NameOrder
import Libbit.IndexFileSpec

/-! Writing and reading of tree objects. The order in which the set keeps its entries is the order of the bytes of
their names, with a slash after the name of a directory. -/
namespace Libbit
namespace TreeFormat

open Lib Lib.Reader
open IndexFile (isUtf8 utf8From readOid_decodes dropLastByte_decodes)

/-! ### The format -/

/-- The names that a tree may hold. -/
structure ValidName (n : Bytes) : Prop where
  nonempty : n ≠ []
  utf8 : isUtf8 n
  slash : SLASH ∉ n
  null : 0 ∉ n

/-- The name, with a slash appended to directories. -/
def TreeEntry.gitKey (e : TreeEntry) : Bytes := e.path++if e.mode = .TREE then [SLASH] else []

def gitLt (e e' : TreeEntry) : Prop := e.gitKey < e'.gitKey

/-- A mode in octal without leading zeros. -/
structure ModeText (m : IndexFile.FileMode) (t : Bytes) : Prop where
  nonempty : t ≠ []
  digits : ∀ c ∈ t, 48 ≤ c.val ∧ c.val ≤ 55
  head : t.head? ≠ some 48
  value : t.foldl (fun n c => 8*n+(c.val-48)) 0 = m.asU32.toNat

structure GitEntry (e : TreeEntry) (bytes : Bytes) : Prop where
  name : ValidName e.path
  layout : ∃ t, ModeText e.mode t ∧ bytes = t++(0x20::(e.path++(0x00::e.oid.bytes)))

/-- The bytes are a valid tree object with these entries. -/
structure GitTree (es : List TreeEntry) (bytes : Bytes) : Prop where
  layout : ∃ records, List.Forall₂ GitEntry es records ∧ bytes = records.flatten
  sorted : es.Pairwise gitLt

variable {e e' : TreeEntry} {es : List TreeEntry} {bytes : Bytes}

/-! ### Order -/

theorem gitKey_injective (h : ValidName e.path) (h' : ValidName e'.path) (hkey : e.gitKey = e'.gitKey) :
    (e.path,e.isTree) = (e'.path,e'.isTree) := by
  unfold TreeEntry.gitKey at hkey
  by_cases hm : e.mode = .TREE <;> by_cases hm' : e'.mode = .TREE <;>
    simp only [hm,hm',if_true,if_false,List.append_nil] at hkey
  · simp [TreeEntry.isTree,hm,hm',List.append_cancel_right hkey]
  · exact absurd (hkey ▸ List.mem_append_right e.path List.mem_cons_self) h'.slash
  · exact absurd (hkey ▸ List.mem_append_right e'.path List.mem_cons_self) h.slash
  · simp [TreeEntry.isTree,hm,hm',hkey]

theorem follows_key (e : TreeEntry) : Tree.Follows e.isTree (if e.mode = .TREE then [SLASH] else []) := by
  by_cases hm : e.mode = .TREE <;> simp [Tree.Follows,TreeEntry.isTree,hm]

theorem gitLt_of_cmp (h : e.cmp e' = .lt) : gitLt e e' := by
  have hlt : entryLt (e.path,e.isTree) (e'.path,e'.isTree) := decide_eq_true h
  exact Tree.lt_of_entryLt hlt (follows_key e) (follows_key e')

theorem swap_cmp (e e' : TreeEntry) : (e.cmp e').swap = e'.cmp e := pathCmpExplicit_swap e.path e'.path e.isTree e'.isTree

/-- The comparison of the source is the order of the bytes of the keys. -/
theorem cmp_eq_lt_iff (h : ValidName e.path) (h' : ValidName e'.path) : e.cmp e' = .lt ↔ gitLt e e' := by
  refine ⟨gitLt_of_cmp,fun hlt => ?_⟩
  by_contra hne
  have hswap : ¬e'.cmp e = .lt := fun hgt => lt_asymm (gitLt_of_cmp hgt) hlt
  have heq : (e.path,e.isTree) = (e'.path,e'.isTree) :=
    entryLt_total ⟨h.slash,h.null⟩ ⟨h'.slash,h'.null⟩ 
      (fun h => hne (of_decide_eq_true h)) fun h => hswap (of_decide_eq_true h)
  obtain ⟨hpath,htree⟩ := Prod.mk.inj heq
  have hmode : e.mode = .TREE ↔ e'.mode = .TREE := by simpa [TreeEntry.isTree] using htree
  have hkey : e.gitKey = e'.gitKey := by simp [TreeEntry.gitKey,hpath,hmode]
  exact (lt_of_lt_of_eq hlt hkey.symm).false

theorem cmp_ne_gt_iff (h : ValidName e.path) (h' : ValidName e'.path) : e.cmp e' ≠ .gt ↔ e.gitKey ≤ e'.gitKey := by
  have hswap : e.cmp e' = .gt ↔ e'.cmp e = .lt := by
    rw [← swap_cmp e e']
    cases e.cmp e' <;> simp
  rw [Ne,hswap,cmp_eq_lt_iff h' h]
  exact not_lt

/-! ### Sets -/

theorem dedupSorted_eq_self (h : es.Nodup) : MutableTree.dedupSorted es = es := by
  induction es with
  | nil => rfl
  | cons e es ih =>
    cases es with
    | nil => rfl
    | cons e' es =>
      have hne : e ≠ e' := fun heq => (List.nodup_cons.mp h).1 (heq ▸ List.mem_cons_self)
      rw [MutableTree.dedupSorted,if_neg hne,ih h.of_cons]

/-- A set made of entries that differ in name or kind holds them in git's order. -/
theorem fromIter_sorted (hname : ∀ e ∈ es, ValidName e.path)
    (hdistinct : es.Pairwise fun e e' => (e.path,e.isTree) ≠ (e'.path,e'.isTree)) :
    (MutableTree.fromIter es).entries.Perm es ∧ (MutableTree.fromIter es).entries.Pairwise gitLt := by
  have hperm : (es.mergeSort fun e e' => e.cmp e' ≠ .gt).Perm es := List.mergeSort_perm es _
  have hkeys : (es.mergeSort fun e e' => e.cmp e' ≠ .gt).map TreeEntry.gitKey =
      (es.map TreeEntry.gitKey).mergeSort fun k k' => k ≤ k' :=
    List.map_mergeSort fun a ha b hb => by simp only [cmp_ne_gt_iff (hname a ha) (hname b hb)]
  have hle : ((es.mergeSort fun e e' => e.cmp e' ≠ .gt).map TreeEntry.gitKey).Pairwise (· ≤ ·) := by
    rw [hkeys]
    exact (List.pairwise_mergeSort' (· ≤ ·) (es.map TreeEntry.gitKey))
  have hnodup : (es.map TreeEntry.gitKey).Nodup := by
    refine List.pairwise_map.mpr (hdistinct.imp_of_mem fun ha hb hne heq => hne ?_)
    exact gitKey_injective (hname _ ha) (hname _ hb) heq
  have hnodup' := (hperm.map TreeEntry.gitKey).nodup_iff.mpr hnodup
  have hself : (MutableTree.fromIter es).entries = es.mergeSort fun e e' => e.cmp e' ≠ .gt :=
    dedupSorted_eq_self hnodup'.of_map
  rw [hself]
  have hlt := (hle.and hnodup').imp fun h => lt_of_le_of_ne h.1 h.2
  have hsorted := List.pairwise_map.mp hlt
  exact ⟨hperm,hsorted⟩

theorem insertEntry_last (hname : ValidName e.path) (hnames : ∀ x ∈ es, ValidName x.path) (h : ∀ x ∈ es, gitLt x e) :
    MutableTree.insertEntry e es = es++[e] := by
  induction es with
  | nil => rfl
  | cons x es ih =>
    have hgt : e.cmp x = .gt := by
      rw [← swap_cmp x e,(cmp_eq_lt_iff (hnames x List.mem_cons_self) hname).mpr (h x List.mem_cons_self)]
      rfl
    rw [MutableTree.insertEntry,hgt]
    exact congrArg (x::·) (ih (fun y hy => hnames y (List.mem_cons_of_mem x hy)) fun y hy => h y (List.mem_cons_of_mem x hy))

/-- Entries that come in order are appended one by one. -/
theorem foldl_insert (hnames : ∀ e ∈ es, ValidName e.path) (hsorted : es.Pairwise gitLt) :
    es.foldl MutableTree.insert ⟨[]⟩ = ⟨es⟩ := by
  induction es using List.reverseRecOn with
  | nil => rfl
  | append_singleton es e ih =>
    obtain ⟨hes,-,hlt⟩ := List.pairwise_append.mp hsorted
    have hinit : ∀ x ∈ es, ValidName x.path := fun x hx => hnames x (List.mem_append_left _ hx)
    rw [List.foldl_append,ih hinit hes,List.foldl_cons,List.foldl_nil,MutableTree.insert,
      insertEntry_last (hnames e (by simp)) hinit fun x hx => hlt x hx e (by simp)]

/-! ### Names and modes in the file -/

theorem utf8From_cons (lo hi : ℕ) (b : Byte) (bs : Bytes) :
    utf8From 0 lo hi (b::bs) = match utf8Start b with
      | some (n,lo,hi) => utf8From n lo hi bs
      | none => false := by
  unfold utf8Start
  rw [utf8From]
  split_ifs <;> rfl

theorem displayFrom_eq {n lo hi : ℕ} {bs : Bytes} (h : utf8From n lo hi bs) (seen : Bytes) :
    displayFrom n lo hi seen bs = seen++bs := by
  induction bs generalizing n lo hi seen with
  | nil =>
    cases n with
    | zero => exact (List.append_nil seen).symm
    | succ n => cases h
  | cons b bs ih =>
    cases n with
    | zero =>
      rw [utf8From_cons] at h
      rw [displayFrom,if_neg (by simp),if_pos rfl]
      cases hb : utf8Start b with
      | none => simp [hb] at h
      | some r =>
        obtain ⟨n,lo,hi⟩ := r
        rw [hb] at h
        exact congrArg (seen++·) (ih h [b])
    | succ n =>
      simp only [utf8From,Bool.and_eq_true,decide_eq_true_eq] at h
      rw [displayFrom,if_pos ⟨Nat.succ_ne_zero n,h.1⟩,Nat.add_sub_cancel,ih h.2,List.append_assoc]
      rfl

theorem display_eq_self {n : Bytes} (h : isUtf8 n) : display n = n := displayFrom_eq h []

theorem modeText_text (m : IndexFile.FileMode) : ModeText m (Radix.text 8 m.asU32.toNat) := by
  refine ⟨Radix.text_ne_nil _ _,?_,?_,?_⟩ <;> cases m <;> decide +kernel

theorem ModeText.eq {m : IndexFile.FileMode} {t : Bytes} (h : ModeText m t) : t = Radix.text 8 m.asU32.toNat := by
  have hdigits : (t.map fun c => c.val-48).map Radix.digitByte = t := by
    rw [List.map_map]
    refine (List.map_congr_left fun c hc => ?_).trans (List.map_id t)
    have hall : ∀ d < 8, (Radix.digitByte d).val = 48+d := by decide
    have hc' := h.digits c hc
    exact Fin.ext ((hall (c.val-48) (by omega)).trans (by simp; omega))
  have hhead : (t.map fun c => c.val-48).head? ≠ some 0 := by
    intro h0
    obtain ⟨c,hc,hc0⟩ : ∃ c, t.head? = some c ∧ c.val-48 = 0 := by simpa [List.head?_map] using h0
    have hc' := h.digits c (List.mem_of_mem_head? hc)
    exact h.head (hc.trans (congrArg some (Fin.ext (by simp; omega))))
  have hlt : ∀ d ∈ t.map fun c => c.val-48, d < 8 := by
    intro d hd
    obtain ⟨c,hc,rfl⟩ := List.mem_map.mp hd
    have hc' := h.digits c hc
    omega
  have hvalue : Radix.value 8 (t.map fun c => c.val-48) = m.asU32.toNat := by
    rw [Radix.value,List.foldl_map]
    exact h.value
  rw [← hvalue,(Radix.text_value (by decide) hlt (by simpa using h.nonempty) hhead).1,hdigits]

theorem gitEntry_serialize (h : ValidName e.path) : GitEntry e e.serialize :=
  ⟨h,_,modeText_text e.mode,by rw [TreeEntry.serialize,display_eq_self h.utf8]⟩

theorem GitEntry.eq (h : GitEntry e bytes) : bytes = e.serialize := by
  obtain ⟨t,ht,rfl⟩ := h.layout
  rw [ht.eq,TreeEntry.serialize,display_eq_self h.name.utf8]

theorem gitTree_serialize (hnames : ∀ e ∈ es, ValidName e.path) (hsorted : es.Pairwise gitLt) :
    GitTree es (es.flatMap TreeEntry.serialize) := by
  refine ⟨⟨es.map TreeEntry.serialize,?_,List.flatMap_def⟩,hsorted⟩
  exact List.forall₂_map_right_iff.mpr (List.forall₂_same.mpr fun e he => gitEntry_serialize (hnames e he))

theorem flatMap_serialize {records : List Bytes} (h : List.Forall₂ GitEntry es records) :
    (∀ e ∈ es, ValidName e.path) ∧ records.flatten = es.flatMap TreeEntry.serialize := by
  induction h with
  | nil => exact ⟨by simp,rfl⟩
  | cons hr _ ih =>
    refine ⟨List.forall_mem_cons.mpr ⟨hr.name,ih.1⟩,?_⟩
    rw [List.flatMap_cons,List.flatten_cons,hr.eq,ih.2]

theorem GitTree.eq (h : GitTree es bytes) : (∀ e ∈ es, ValidName e.path) ∧ bytes = es.flatMap TreeEntry.serialize := by
  obtain ⟨records,hall,rfl⟩ := h.layout
  exact flatMap_serialize hall

/-! ### Reading what was written -/

theorem deserialize_decodes (h : ValidName e.path) : Decodes TreeEntry.deserialize e.serialize e := by
  have hspace : 0x20 ∉ Radix.text 8 e.mode.asU32.toNat := fun hmem =>
    absurd ((modeText_text e.mode).digits _ hmem).1 (by decide)
  have hmode : (Radix.parse 8 (Radix.text 8 e.mode.asU32.toNat)).filter (· < 2^32) = some e.mode.asU32.toNat := by
    rw [Radix.parse_text (by decide) (by decide)]
    exact Option.filter_some_pos (decide_eq_true e.mode.asU32.toNat_lt)
  have hnew : Decodes (IndexFile.FileMode.new (UInt32.ofNat e.mode.asU32.toNat)) [] e.mode := by
    rw [UInt32.ofNat_toNat]
    exact IndexFile.FileMode.new_decodes e.mode
  have hpath : (if e.path++[0] = [] then none else some (e.path++[0]).dropLast) = some e.path := by simp
  have htext : e.serialize = (Radix.text 8 e.mode.asU32.toNat++[0x20])++((e.path++[0])++e.oid.bytes) := by
    simp only [TreeEntry.serialize,display_eq_self h.utf8,List.append_assoc,List.cons_append,List.nil_append]
  rw [htext]
  refine (Decodes.readUntil hspace).bind <| (dropLastByte_decodes _ _).andThen <| (Decodes.orFail hmode).andThen <|
    hnew.andThen <| (Decodes.readUntil h.null).bind <| (Decodes.orFail hpath).andThen ?_
  exact (readOid_decodes e.oid).bindPure (Decodes.pure e)

theorem serialize_ne_nil (e : TreeEntry) : e.serialize ≠ [] := by simp [TreeEntry.serialize,Radix.text_ne_nil]

theorem toEnd_serialize (hnames : ∀ e ∈ es, ValidName e.path) (rest : Bytes) :
    (toEnd TreeEntry.deserialize .outOfFuel ((es.flatMap TreeEntry.serialize).length+1)).run
      ((es.flatMap TreeEntry.serialize++rest).take (es.flatMap TreeEntry.serialize).length) = .ok (es,[]) := by
  rw [List.take_left]
  exact toEnd_eq (fun e he => deserialize_decodes (hnames e he)) (fun e _ => serialize_ne_nil e) _
    (Nat.lt_succ_of_le (length_le_flatMap fun e _ => serialize_ne_nil e))

theorem readEntries_serialize (hnames : ∀ e ∈ es, ValidName e.path) (rest : Bytes) :
    Tree.readEntries (es.flatMap TreeEntry.serialize++rest) (es.flatMap TreeEntry.serialize).length = .ok es := by
  rw [Tree.readEntries,toEnd_serialize hnames]
  rfl

theorem deserializeSized_serialize (hnames : ∀ e ∈ es, ValidName e.path) (hsorted : es.Pairwise gitLt) (rest : Bytes) :
    MutableTree.deserializeSized (es.flatMap TreeEntry.serialize++rest) (es.flatMap TreeEntry.serialize).length =
      .ok ⟨es⟩ := by
  rw [MutableTree.deserializeSized,toEnd_serialize hnames]
  change (ensure _ ((es.foldl MutableTree.insert ⟨[]⟩).entries = es) >>= fun _ => pure (es.foldl MutableTree.insert ⟨[]⟩)) = _
  rw [foldl_insert hnames hsorted,ensure,if_pos rfl]
  rfl

/-- A directory, a submodule, and a file whose name sorts between the directory and what is below it. -/
def sampleEntries : List TreeEntry :=
  [⟨.TREE,[0x61],.UNKNOWN⟩,⟨.GITLINK,[0x62],.UNKNOWN⟩,⟨.REG,[0x61,0x2E,0x62],.UNKNOWN⟩]

theorem sampleEntries_names : ∀ e ∈ sampleEntries, ValidName e.path := by
  intro e he
  simp only [sampleEntries,List.mem_cons,List.not_mem_nil,or_false] at he
  rcases he with rfl | rfl | rfl <;> exact ⟨by decide,by decide,by decide,by decide⟩

end TreeFormat
end Libbit

import Mathlib

/-! The merge join of two lists by a key: what it takes from the left alone, from both sides at once, and from the
right alone. On the left several may share a key, and only the first of them finds a partner. -/
namespace Libbit
namespace Lib

/-- Every turn compares the keys of the heads. -/
inductive MergeJoin {α β κ : Type} [LT κ] (f : α → κ) (g : β → κ) :
    List α → List β → List α → List (α × β) → List β → Prop
  | nil : MergeJoin f g [] [] [] [] []
  | left {a : α} {as l : List α} {bs r : List β} {m : List (α × β)} (h : ∀ b ∈ bs.head?, f a < g b)
    (hj : MergeJoin f g as bs l m r) : MergeJoin f g (a::as) bs (a::l) m r
  | right {b : β} {as l : List α} {bs r : List β} {m : List (α × β)} (h : ∀ a ∈ as.head?, g b < f a)
    (hj : MergeJoin f g as bs l m r) : MergeJoin f g as (b::bs) l m (b::r)
  | both {a : α} {b : β} {as l : List α} {bs r : List β} {m : List (α × β)} (h : f a = g b)
    (hj : MergeJoin f g as bs l m r) : MergeJoin f g (a::as) (b::bs) l ((a,b)::m) r

namespace MergeJoin
variable {α β κ : Type} [LinearOrder κ] {f : α → κ} {g : β → κ} {as l : List α} {bs r : List β} {m : List (α × β)}

theorem perm_left (h : MergeJoin f g as bs l m r) : as.Perm (l++m.map Prod.fst) := by
  induction h with
  | nil => exact List.Perm.nil
  | left _ _ ih => exact ih.cons _
  | right _ _ ih => exact ih
  | both _ _ ih => exact (ih.cons _).trans List.perm_middle.symm

theorem perm_right (h : MergeJoin f g as bs l m r) : bs.Perm (r++m.map Prod.snd) := by
  induction h with
  | nil => exact List.Perm.nil
  | left _ _ ih => exact ih
  | right _ _ ih => exact ih.cons _
  | both _ _ ih => exact (ih.cons _).trans List.perm_middle.symm

theorem mem_left (h : MergeJoin f g as bs l m r) {a : α} : a ∈ as ↔ a ∈ l ∨ ∃ b, (a,b) ∈ m := by
  simp [h.perm_left.mem_iff]

theorem mem_right (h : MergeJoin f g as bs l m r) {b : β} : b ∈ bs ↔ b ∈ r ∨ ∃ a, (a,b) ∈ m := by
  simp [h.perm_right.mem_iff]

theorem key_eq (h : MergeJoin f g as bs l m r) {x : α × β} (hx : x ∈ m) : f x.1 = g x.2 := by
  induction h with
  | nil => cases hx
  | left _ _ ih => exact ih hx
  | right _ _ ih => exact ih hx
  | both hkey _ ih =>
    rcases List.mem_cons.mp hx with rfl | hx
    · exact hkey
    · exact ih hx

theorem nodup_left (h : MergeJoin f g as bs l m r) (hs : as.Nodup) : (l++m.map Prod.fst).Nodup := h.perm_left.nodup_iff.mp hs

/-- What is left over has no partner. -/
theorem alone_left (h : MergeJoin f g as bs l m r) (hs : as.Nodup) {a : α} (ha : a ∈ l) (b : β) : (a,b) ∉ m := fun hm =>
  List.disjoint_of_nodup_append (h.nodup_left hs) ha (List.mem_map.mpr ⟨_,hm,rfl⟩)

theorem nodup_right (h : MergeJoin f g as bs l m r) (ht : bs.Nodup) : (r++m.map Prod.snd).Nodup := h.perm_right.nodup_iff.mp ht

theorem alone_right (h : MergeJoin f g as bs l m r) (ht : bs.Nodup) {b : β} (hb : b ∈ r) (a : α) : (a,b) ∉ m := fun hm =>
  List.disjoint_of_nodup_append (h.nodup_right ht) hb (List.mem_map.mpr ⟨_,hm,rfl⟩)

theorem partner_eq (h : MergeJoin f g as bs l m r) (ht : bs.Nodup) {a a' : α} {b : β} (hm : (a,b) ∈ m)
    (hm' : (a',b) ∈ m) : a = a' :=
  congrArg Prod.fst (List.inj_on_of_nodup_map (List.nodup_append.mp (h.nodup_right ht)).2.1 hm hm' rfl)

/-- What comes before the head of a list that ascends comes before all of it. -/
theorem lt_of_head {γ : Type} {q : γ → κ} {cs : List γ} (hs : cs.Pairwise fun c c' => q c ≤ q c') {k : κ}
    (h : ∀ c ∈ cs.head?, k < q c) {c : γ} (hc : c ∈ cs) : k < q c := by
  cases cs with
  | nil => cases hc
  | cons d cs =>
    rcases List.mem_cons.mp hc with rfl | hc
    · exact h c rfl
    · exact (h d rfl).trans_le ((List.pairwise_cons.mp hs).1 c hc)

section Sorted
variable (hs : as.Pairwise fun a a' => f a ≤ f a') (ht : bs.Pairwise fun b b' => g b < g b')
include hs ht

/-- What the right side has alone is a key that the left does not have. -/
theorem ne_of_right (h : MergeJoin f g as bs l m r) {b : β} (hb : b ∈ r) {a : α} (ha : a ∈ as) : f a ≠ g b := by
  induction h with
  | nil => cases hb
  | left hlt hj ih =>
    rcases List.mem_cons.mp ha with rfl | ha
    · exact (lt_of_head (ht.imp le_of_lt) hlt (hj.mem_right.mpr (Or.inl hb))).ne
    · exact ih (List.pairwise_cons.mp hs).2 ht hb ha
  | right hlt hj ih =>
    rcases List.mem_cons.mp hb with rfl | hb
    · exact (lt_of_head hs hlt ha).ne'
    · exact ih hs (List.pairwise_cons.mp ht).2 hb ha
  | both hkey hj ih =>
    obtain ⟨hlt,ht⟩ := List.pairwise_cons.mp ht
    rcases List.mem_cons.mp ha with rfl | ha
    · rw [hkey]
      exact (hlt b (hj.mem_right.mpr (Or.inl hb))).ne
    · exact ih (List.pairwise_cons.mp hs).2 ht hb ha

theorem mem_right_iff (h : MergeJoin f g as bs l m r) {b : β} : b ∈ r ↔ b ∈ bs ∧ ∀ a ∈ as, f a ≠ g b := by
  constructor
  · exact fun hb => ⟨h.mem_right.mpr (Or.inl hb),fun a ha => h.ne_of_right hs ht hb ha⟩
  · rintro ⟨hb,hne⟩
    rcases h.mem_right.mp hb with hb | ⟨a,hm⟩
    · exact hb
    · exact absurd (h.key_eq hm) (hne a (h.mem_left.mpr (Or.inr ⟨b,hm⟩)))

/-- A partner is the first of its key: all others stand behind it. -/
theorem first (h : MergeJoin f g as bs l m r) {R : α → α → Prop} (hR : as.Pairwise R) {a x : α} {b : β} (hm : (a,b) ∈ m)
    (hx : x ∈ as) (hkey : f x = f a) : x = a ∨ R a x := by
  induction h with
  | nil => cases hm
  | left hlt hj ih =>
    rcases List.mem_cons.mp hx with rfl | hx
    · have hbefore := lt_of_head (ht.imp le_of_lt) hlt (hj.mem_right.mpr (Or.inr ⟨a,hm⟩))
      exact absurd (hkey.trans (hj.key_eq hm)) hbefore.ne
    · exact ih (List.pairwise_cons.mp hs).2 ht (List.pairwise_cons.mp hR).2 hm hx
  | right hlt hj ih => exact ih hs (List.pairwise_cons.mp ht).2 hR hm hx
  | both hab hj ih =>
    obtain ⟨hlt,ht⟩ := List.pairwise_cons.mp ht
    obtain ⟨hR₁,hR⟩ := List.pairwise_cons.mp hR
    rcases List.mem_cons.mp hm with heq | hm'
    · cases heq
      rcases List.mem_cons.mp hx with rfl | hx
      · exact Or.inl rfl
      · exact Or.inr (hR₁ x hx)
    · rcases List.mem_cons.mp hx with rfl | hx
      · have hb := hj.mem_right.mpr (Or.inr ⟨a,hm'⟩)
        exact absurd (hab.symm.trans (hkey.trans (hj.key_eq hm'))) (hlt _ hb).ne
      · exact ih (List.pairwise_cons.mp hs).2 ht hR hm' hx

end Sorted

/-- The join from the other side. -/
theorem swap (h : MergeJoin f g as bs l m r) : MergeJoin g f bs as r (m.map Prod.swap) l := by
  induction h with
  | nil => exact .nil
  | left hlt _ ih => exact .right hlt ih
  | right hlt _ ih => exact .left hlt ih
  | both hkey _ ih => exact .both hkey.symm ih

section Strict
variable (hs : as.Pairwise fun a a' => f a < f a') (ht : bs.Pairwise fun b b' => g b < g b')
include hs ht

/-- What the left side has alone is a key that the right does not have. -/
theorem mem_left_iff (h : MergeJoin f g as bs l m r) {a : α} : a ∈ l ↔ a ∈ as ∧ ∀ b ∈ bs, g b ≠ f a :=
  h.swap.mem_right_iff (ht.imp le_of_lt) hs

/-- Both sides have the same key exactly when they are joined. -/
theorem mem_both_iff (h : MergeJoin f g as bs l m r) {a : α} {b : β} : (a,b) ∈ m ↔ a ∈ as ∧ b ∈ bs ∧ f a = g b := by
  constructor
  · exact fun hm => ⟨h.mem_left.mpr (Or.inr ⟨b,hm⟩),h.mem_right.mpr (Or.inr ⟨a,hm⟩),h.key_eq hm⟩
  · rintro ⟨ha,hb,hkey⟩
    rcases h.mem_right.mp hb with hb' | ⟨a',hm⟩
    · exact absurd hkey (h.ne_of_right (hs.imp le_of_lt) ht hb' ha)
    · have ha' : a' ∈ as := h.mem_left.mpr (Or.inr ⟨b,hm⟩)
      have hinj : (as.map f).Nodup := List.pairwise_map.mpr (hs.imp ne_of_lt)
      obtain rfl := List.inj_on_of_nodup_map hinj ha ha' (hkey.trans (h.key_eq hm).symm)
      exact hm

/-- No key is listed twice. -/
theorem nodup_keys (h : MergeJoin f g as bs l m r) : (r.map g++(m.map fun x => f x.1)++l.map f).Nodup := by
  have hinj : (as.map f).Nodup := List.pairwise_map.mpr (hs.imp ne_of_lt)
  have hleft : (l.map f++(m.map fun x => f x.1)).Nodup := by
    have hperm := (h.perm_left.map f).nodup_iff.mp hinj
    rwa [List.map_append,List.map_map] at hperm
  have hright : (r.map g).Nodup := by
    have hperm := (h.perm_right.map g).nodup_iff.mp (List.pairwise_map.mpr (ht.imp ne_of_lt))
    rw [List.map_append] at hperm
    exact (List.nodup_append.mp hperm).1
  have hapart {b : β} (hb : b ∈ r) {a : α} (ha : a ∈ as) : g b ≠ f a := (h.ne_of_right (hs.imp le_of_lt) ht hb ha).symm
  rw [List.append_assoc]
  refine List.Nodup.append hright (List.perm_append_comm.nodup_iff.mp hleft) fun k hr hl => ?_
  obtain ⟨b,hb,rfl⟩ := List.mem_map.mp hr
  rcases List.mem_append.mp hl with hm | hl
  · obtain ⟨x,hx,heq⟩ := List.mem_map.mp hm
    exact hapart hb (h.mem_left.mpr (Or.inr ⟨x.2,hx⟩)) heq.symm
  · obtain ⟨a,ha,heq⟩ := List.mem_map.mp hl
    exact hapart hb (h.mem_left.mpr (Or.inl ha)) heq.symm

end Strict

end MergeJoin
end Lib
end Libbit

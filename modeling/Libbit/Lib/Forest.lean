import Mathlib

/-! Finite trees whose vertices are addressed by paths of names. What such a tree holds is
observed through `look`, and every update is described by what it does to `look`. -/
namespace Libbit
namespace Lib

/-- The children of one vertex, in some order: leaves with a value and inner vertices. -/
inductive Forest (ν α : Type*)
  | nil
  | leaf (name : ν) (value : α) (rest : Forest ν α)
  | node (name : ν) (sub rest : Forest ν α)
  deriving DecidableEq, Repr

namespace Forest
variable {ν α β : Type*} [DecidableEq ν]

/-- What stands at a path: nothing, a leaf with its value, or an inner vertex. -/
def look : Forest ν α → List ν → Option (Option α)
  | _, [] => some none
  | nil, _::_ => none
  | leaf m a rest, n::p =>
    if m = n then (if p = [] then some (some a) else none) else look rest (n::p)
  | node m sub rest, n::p => if m = n then look sub p else look rest (n::p)

/-- The inner vertex at a path. -/
def sub? : Forest ν α → List ν → Option (Forest ν α)
  | f, [] => some f
  | nil, _::_ => none
  | leaf m _ rest, n::p => if m = n then none else sub? rest (n::p)
  | node m sub rest, n::p => if m = n then sub? sub p else sub? rest (n::p)

/-- Drop the children of a name. -/
def erase (n : ν) : Forest ν α → Forest ν α
  | nil => nil
  | leaf m a rest => if m = n then erase n rest else leaf m a (erase n rest)
  | node m sub rest => if m = n then erase n rest else node m sub (erase n rest)

/-- Apply a function to the children of the inner vertex at a path, if there is one. -/
def modify (g : Forest ν α → Forest ν α) : Forest ν α → List ν → Forest ν α
  | f, [] => g f
  | nil, _::_ => nil
  | leaf m a rest, n::p => if m = n then leaf m a rest else leaf m a (modify g rest (n::p))
  | node m sub rest, n::p =>
    if m = n then node m (modify g sub p) rest else node m sub (modify g rest (n::p))

/-- The vertices in preorder with their full paths. -/
def entries (pre : List ν) : Forest ν α → List (List ν × (α ⊕ Forest ν α))
  | nil => []
  | leaf n a rest => (pre++[n],.inl a)::entries pre rest
  | node n sub rest => (pre++[n],.inr sub)::(entries (pre++[n]) sub++entries pre rest)

/-- The number of vertices. -/
def size : Forest ν α → ℕ
  | nil => 0
  | leaf _ _ rest => rest.size+1
  | node _ sub rest => sub.size+rest.size+1

def map (f : α → β) : Forest ν α → Forest ν β
  | nil => nil
  | leaf n a rest => leaf n (f a) (rest.map f)
  | node n sub rest => node n (sub.map f) (rest.map f)

section Sorting
variable (lt : ν × Bool → ν × Bool → Bool)

/-- Insert a leaf before the first child that does not precede it. -/
def insertLeaf (n : ν) (a : α) : Forest ν α → Forest ν α
  | nil => leaf n a nil
  | leaf m b rest => if lt (m,false) (n,false) then leaf m b (insertLeaf n a rest) else leaf n a (leaf m b rest)
  | node m sub rest =>
    if lt (m,true) (n,false) then node m sub (insertLeaf n a rest) else leaf n a (node m sub rest)

def insertNode (n : ν) (s : Forest ν α) : Forest ν α → Forest ν α
  | nil => node n s nil
  | leaf m b rest => if lt (m,false) (n,true) then leaf m b (insertNode n s rest) else node n s (leaf m b rest)
  | node m sub rest =>
    if lt (m,true) (n,true) then node m sub (insertNode n s rest) else node n s (node m sub rest)

/-- Sort the children of every vertex; the flag tells inner vertices from leaves. -/
def sort : Forest ν α → Forest ν α
  | nil => nil
  | leaf n a rest => insertLeaf lt n a (sort rest)
  | node n sub rest => insertNode lt n (sort sub) (sort rest)

end Sorting

section Map
variable (g : α → β) (lt : ν × Bool → ν × Bool → Bool)

omit [DecidableEq ν] in
theorem map_insertLeaf (n : ν) (a : α) (f : Forest ν α) :
    (f.insertLeaf lt n a).map g = (f.map g).insertLeaf lt n (g a) := by
  induction f with
  | nil => rfl
  | leaf m b rest ih => by_cases h : lt (m,false) (n,false) = true <;> simp [insertLeaf,map,h,ih]
  | node m sub rest _ ih => by_cases h : lt (m,true) (n,false) = true <;> simp [insertLeaf,map,h,ih]

omit [DecidableEq ν] in
theorem map_insertNode (n : ν) (s f : Forest ν α) :
    (insertNode lt n s f).map g = insertNode lt n (s.map g) (f.map g) := by
  induction f with
  | nil => rfl
  | leaf m b rest ih => by_cases h : lt (m,false) (n,true) = true <;> simp [insertNode,map,h,ih]
  | node m sub rest _ ih => by_cases h : lt (m,true) (n,true) = true <;> simp [insertNode,map,h,ih]

omit [DecidableEq ν] in
/-- Sorting looks at names only. -/
theorem map_sort (f : Forest ν α) : (f.sort lt).map g = (f.map g).sort lt := by
  induction f with
  | nil => rfl
  | leaf n a rest ih => rw [sort,map_insertLeaf,ih,map,sort]
  | node n sub rest ihs ihr => rw [sort,map_insertNode,ihs,ihr,map,sort]

end Map

@[simp] theorem look_nil_path (f : Forest ν α) : f.look [] = some none := by cases f <;> rfl
@[simp] theorem sub?_nil_path (f : Forest ν α) : f.sub? [] = some f := by cases f <;> rfl
@[simp] theorem modify_nil_path (g : Forest ν α → Forest ν α) (f : Forest ν α) : f.modify g [] = g f := by
  cases f <;> rfl

theorem look_map (g : α → β) (f : Forest ν α) (p : List ν) : (f.map g).look p = (f.look p).map (Option.map g) := by
  induction f generalizing p with
  | nil => cases p <;> simp [map,look]
  | leaf m a rest ih =>
    cases p with
    | nil => simp
    | cons n p =>
      by_cases hn : m = n
      · by_cases hp : p = [] <;> simp [map,look,hn,hp]
      · simp [map,look,hn,ih]
  | node m sub rest ihs ihr =>
    cases p with
    | nil => simp
    | cons n p => by_cases hn : m = n <;> simp [map,look,hn,ihs,ihr]

theorem look_of_sub? {f s : Forest ν α} {p : List ν} (h : f.sub? p = some s) (q : List ν) :
    f.look (p++q) = s.look q := by
  induction f generalizing p with
  | nil =>
    cases p with
    | nil => simpa using congrArg (fun f => look f q) (by simpa using h)
    | cons n p => simp [sub?] at h
  | leaf m a rest ih =>
    cases p with
    | nil => simp_all
    | cons n p =>
      by_cases hm : m = n
      · simp [sub?,hm] at h
      · simp only [sub?,hm,if_false] at h
        simpa [look,hm] using ih h
  | node m sub rest ihs ihr =>
    cases p with
    | nil => simp_all
    | cons n p =>
      by_cases hm : m = n
      · simp only [sub?,hm,if_true] at h
        simpa [look,hm] using ihs h
      · simp only [sub?,hm,if_false] at h
        simpa [look,hm] using ihr h

theorem look_eq_dir {f : Forest ν α} {p : List ν} : f.look p = some none ↔ ∃ s, f.sub? p = some s := by
  induction f generalizing p with
  | nil => cases p <;> simp [look,sub?]
  | leaf m a rest ih =>
    cases p with
    | nil => simp
    | cons n p =>
      by_cases hm : m = n
      · by_cases hp : p = [] <;> simp [look,sub?,hm,hp]
      · simpa [look,sub?,hm] using ih
  | node m sub rest ihs ihr =>
    cases p with
    | nil => simp
    | cons n p =>
      by_cases hm : m = n
      · simpa [look,sub?,hm] using ihs
      · simpa [look,sub?,hm] using ihr

/-- Nothing stands below a leaf or below nothing. -/
theorem look_append_of_ne_dir {f : Forest ν α} {p : List ν} (h : f.look p ≠ some none) (n : ν) (q : List ν) :
    f.look (p++n::q) = none := by
  induction f generalizing p with
  | nil => cases p <;> simp_all [look]
  | leaf m a rest ih =>
    cases p with
    | nil => simp at h
    | cons x p =>
      by_cases hm : m = x
      · simp [look,hm]
      · simp only [look,hm,if_false] at h
        simpa [look,hm] using ih h
  | node m sub rest ihs ihr =>
    cases p with
    | nil => simp at h
    | cons x p =>
      by_cases hm : m = x
      · simp only [look,hm,if_true] at h
        simpa [look,hm] using ihs h
      · simp only [look,hm,if_false] at h
        simpa [look,hm] using ihr h

theorem look_erase (n : ν) (f : Forest ν α) (q : List ν) :
    (f.erase n).look q = if [n] <+: q then none else f.look q := by
  cases q with
  | nil => simp
  | cons x q =>
    induction f with
    | nil => simp [erase,look]
    | leaf m a rest ih =>
      by_cases hm : m = n
      · by_cases hx : n = x <;> simp_all [erase,look,List.cons_prefix_cons]
      · by_cases hx : n = x
        · have hmx : m ≠ x := by rintro rfl; exact hm hx.symm
          simp_all [erase,look,List.cons_prefix_cons]
        · simp_all [erase,look,List.cons_prefix_cons]
    | node m sub rest _ ih =>
      by_cases hm : m = n
      · by_cases hx : n = x <;> simp_all [erase,look,List.cons_prefix_cons]
      · by_cases hx : n = x
        · have hmx : m ≠ x := by rintro rfl; exact hm hx.symm
          simp_all [erase,look,List.cons_prefix_cons]
        · simp_all [erase,look,List.cons_prefix_cons]

/-- An update below a directory is seen below it and nowhere else. -/
theorem look_modify {g : Forest ν α → Forest ν α} {f s : Forest ν α} {p : List ν} (h : f.sub? p = some s)
    (q : List ν) : (f.modify g p).look q = if p <+: q then (g s).look (q.drop p.length) else f.look q := by
  induction f generalizing p q with
  | nil =>
    cases p with
    | nil => simp_all
    | cons n p => simp [sub?] at h
  | leaf m a rest ih =>
    cases p with
    | nil => simp_all
    | cons n p =>
      by_cases hm : m = n
      · simp [sub?,hm] at h
      · simp only [sub?,hm,if_false] at h
        cases q with
        | nil => simp [modify,hm]
        | cons x q =>
          by_cases hx : m = x
          · have hnx : ¬n = x := fun hn => hm (hx.trans hn.symm)
            subst hx
            simp [modify,hm,look,List.cons_prefix_cons,hnx]
          · simpa [modify,hm,look,hx] using ih h (x::q)
  | node m sub rest ihs ihr =>
    cases p with
    | nil => simp_all
    | cons n p =>
      by_cases hm : m = n
      · simp only [sub?,hm,if_true] at h
        cases q with
        | nil => simp [modify,hm]
        | cons x q =>
          by_cases hx : n = x
          · simpa [modify,hm,look,hx,List.cons_prefix_cons] using ihs h q
          · simp [modify,hm,look,hx,List.cons_prefix_cons]
      · simp only [sub?,hm,if_false] at h
        cases q with
        | nil => simp [modify,hm]
        | cons x q =>
          by_cases hx : m = x
          · have hnx : ¬n = x := fun hn => hm (hx.trans hn.symm)
            subst hx
            simp [modify,hm,look,List.cons_prefix_cons,hnx]
          · simpa [modify,hm,look,hx] using ihr h (x::q)

theorem modify_of_sub?_none {g : Forest ν α → Forest ν α} {f : Forest ν α} {p : List ν} (h : f.sub? p = none) :
    f.modify g p = f := by
  induction f generalizing p with
  | nil => cases p <;> simp_all [modify]
  | leaf m a rest ih =>
    cases p with
    | nil => simp at h
    | cons n p =>
      by_cases hm : m = n
      · simp [modify,hm]
      · simp only [sub?,hm,if_false] at h
        simp [modify,hm,ih h]
  | node m sub rest ihs ihr =>
    cases p with
    | nil => simp at h
    | cons n p =>
      by_cases hm : m = n
      · simp only [sub?,hm,if_true] at h
        simp [modify,hm,ihs h]
      · simp only [sub?,hm,if_false] at h
        simp [modify,hm,ihr h]

omit [DecidableEq ν] in
theorem append_singleton_prefix_iff {d q : List ν} {n : ν} :
    d++[n] <+: q ↔ d <+: q ∧ [n] <+: q.drop d.length := by
  constructor
  · rintro ⟨t,rfl⟩
    exact ⟨⟨[n]++t,by simp⟩,⟨t,by simp⟩⟩
  · rintro ⟨⟨t,rfl⟩,h⟩
    rw [List.drop_left] at h
    exact List.prefix_append_right_inj d |>.mpr h

/-- Drop the vertex at a path together with all that is below it. -/
theorem look_modify_erase (f : Forest ν α) (d : List ν) (n : ν) (q : List ν) :
    (f.modify (erase n) d).look q = if d++[n] <+: q then none else f.look q := by
  cases hs : f.sub? d with
  | none =>
    rw [modify_of_sub?_none hs]
    split
    · rename_i hp
      obtain ⟨t,rfl⟩ := hp
      have hd : f.look d ≠ some none := fun h => by simp [look_eq_dir,hs] at h
      simpa using look_append_of_ne_dir hd n t
    · rfl
  | some s =>
    rw [look_modify hs,look_erase]
    by_cases hd : d <+: q
    · obtain ⟨t,rfl⟩ := hd
      simp [look_of_sub? hs]
    · simp [append_singleton_prefix_iff,hd]

/-- Put a leaf below an inner vertex. -/
theorem look_modify_leaf {f : Forest ν α} {d : List ν} (hd : f.look d = some none) (n : ν) (a : α) (q : List ν) :
    (f.modify (leaf n a) d).look q =
      if d++[n] <+: q then (if q = d++[n] then some (some a) else none) else f.look q := by
  obtain ⟨s,hs⟩ := look_eq_dir.mp hd
  rw [look_modify hs]
  by_cases hq : d <+: q
  · obtain ⟨t,rfl⟩ := hq
    cases t with
    | nil => simp [append_singleton_prefix_iff,hd]
    | cons x t =>
      by_cases hx : n = x
      · simp [look,hx]
      · simp [look,hx,look_of_sub? hs]
  · simp [append_singleton_prefix_iff,hq]

/-- Put a vertex with its children below an inner vertex. -/
theorem look_modify_node {f : Forest ν α} {d : List ν} (hd : f.look d = some none) (n : ν) (t : Forest ν α)
    (q : List ν) :
    (f.modify (node n t) d).look q = if d++[n] <+: q then t.look (q.drop (d.length+1)) else f.look q := by
  obtain ⟨s,hs⟩ := look_eq_dir.mp hd
  rw [look_modify hs]
  by_cases hq : d <+: q
  · obtain ⟨t',rfl⟩ := hq
    cases t' with
    | nil => simp [append_singleton_prefix_iff,hd]
    | cons x t' =>
      by_cases hx : n = x
      · have ht : (d++x::t').drop (d.length+1) = t' := by
          rw [← List.drop_drop]
          simp
        rw [ht]
        simp [look,hx]
      · simp [look,hx,look_of_sub? hs]
  · simp [append_singleton_prefix_iff,hq]

/-- A path above one at which something stands is an inner vertex. -/
theorem look_prefix {f : Forest ν α} {p q : List ν} (hq : f.look q ≠ none) (h : p <+: q) (hne : p ≠ q) :
    f.look p = some none := by
  obtain ⟨t,rfl⟩ := h
  cases t with
  | nil => simp at hne
  | cons n t =>
    by_contra hd
    exact hq (look_append_of_ne_dir hd n t)

theorem look_dir_of_prefix {f : Forest ν α} {p q : List ν} (hq : f.look q = some none) (h : p <+: q) :
    f.look p = some none := by
  by_cases hne : p = q
  · rwa [hne]
  · exact look_prefix (by simp [hq]) h hne

section Distinct

def names : Forest ν α → List ν
  | nil => []
  | leaf n _ rest => n::rest.names
  | node n _ rest => n::rest.names

/-- No vertex has two children of one name. -/
def Distinct : Forest ν α → Prop
  | nil => True
  | leaf n _ rest => n ∉ rest.names ∧ rest.Distinct
  | node n sub rest => n ∉ rest.names ∧ sub.Distinct ∧ rest.Distinct

instance decidableDistinct : (f : Forest ν α) → Decidable f.Distinct
  | nil => isTrue trivial
  | leaf _ _ rest =>
    have := decidableDistinct rest
    inferInstanceAs (Decidable (_ ∧ _))
  | node _ sub rest =>
    have := decidableDistinct sub
    have := decidableDistinct rest
    inferInstanceAs (Decidable (_ ∧ _))

/-- Every name in the forest has a property. -/
def AllNames (P : ν → Prop) : Forest ν α → Prop
  | nil => True
  | leaf n _ rest => P n ∧ rest.AllNames P
  | node n sub rest => P n ∧ sub.AllNames P ∧ rest.AllNames P

instance decidableAllNames (P : ν → Prop) [DecidablePred P] : (f : Forest ν α) → Decidable (f.AllNames P)
  | nil => isTrue trivial
  | leaf _ _ rest =>
    have := decidableAllNames P rest
    inferInstanceAs (Decidable (_ ∧ _))
  | node _ sub rest =>
    have := decidableAllNames P sub
    have := decidableAllNames P rest
    inferInstanceAs (Decidable (_ ∧ _))

omit [DecidableEq ν] in
theorem AllNames.imp {P Q : ν → Prop} {f : Forest ν α} (h : f.AllNames P) (hPQ : ∀ n, P n → Q n) : f.AllNames Q := by
  induction f with
  | nil => trivial
  | leaf n a rest ih => exact ⟨hPQ n h.1,ih h.2⟩
  | node n sub rest ihs ihr => exact ⟨hPQ n h.1,ihs h.2.1,ihr h.2.2⟩

theorem AllNames.of_look {P : ν → Prop} {f : Forest ν α} (h : f.AllNames P) {p : List ν} (hp : f.look p ≠ none) :
    ∀ n ∈ p, P n := by
  induction f generalizing p with
  | nil =>
    cases p with
    | nil => simp
    | cons n p => simp [look] at hp
  | leaf m a rest ih =>
    cases p with
    | nil => simp
    | cons n p =>
      by_cases hm : m = n
      · obtain rfl : p = [] := by
          by_contra hne
          simp [look,hm,hne] at hp
        simpa [← hm] using h.1
      · exact ih h.2 (by simpa [look,hm] using hp)
  | node m sub rest ihs ihr =>
    cases p with
    | nil => simp
    | cons n p =>
      by_cases hm : m = n
      · have hsub := ihs h.2.1 (p := p) (by simpa [look,hm] using hp)
        simpa [← hm] using ⟨h.1,hsub⟩
      · exact ihr h.2.2 (by simpa [look,hm] using hp)

theorem look_eq_none_of_not_mem {f : Forest ν α} {n : ν} (h : n ∉ f.names) (q : List ν) :
    f.look (n::q) = none ∧ f.sub? (n::q) = none := by
  induction f with
  | nil => exact ⟨rfl,rfl⟩
  | leaf m a rest ih =>
    simp only [names,List.mem_cons,not_or] at h
    have hm : m ≠ n := fun e => h.1 e.symm
    simpa [look,sub?,hm] using ih h.2
  | node m sub rest _ ih =>
    simp only [names,List.mem_cons,not_or] at h
    have hm : m ≠ n := fun e => h.1 e.symm
    simpa [look,sub?,hm] using ih h.2

theorem Distinct.sub? {f s : Forest ν α} {p : List ν} (hf : f.Distinct) (h : f.sub? p = some s) : s.Distinct := by
  induction f generalizing p with
  | nil =>
    cases p with
    | nil => exact Option.some.inj h ▸ hf
    | cons n p => cases h
  | leaf m a rest ih =>
    cases p with
    | nil => exact Option.some.inj h ▸ hf
    | cons n p =>
      by_cases hm : m = n
      · simp [Forest.sub?,hm] at h
      · exact ih hf.2 (by simpa [Forest.sub?,hm] using h)
  | node m sub rest ihs ihr =>
    cases p with
    | nil => exact Option.some.inj h ▸ hf
    | cons n p =>
      by_cases hm : m = n
      · exact ihs hf.2.1 (by simpa [Forest.sub?,hm] using h)
      · exact ihr hf.2.2 (by simpa [Forest.sub?,hm] using h)

omit [DecidableEq ν] in
theorem entries_append (pre : List ν) (f : Forest ν α) {x : List ν × (α ⊕ Forest ν α)} (h : x ∈ f.entries pre) :
    ∃ n ∈ f.names, ∃ p, x.1 = pre++n::p := by
  induction f generalizing pre with
  | nil => simp [entries] at h
  | leaf m a rest ih =>
    rcases List.mem_cons.mp h with rfl | h
    · exact ⟨m,by simp [names],[],rfl⟩
    · obtain ⟨n,hn,p,hp⟩ := ih pre h
      exact ⟨n,by simp [names,hn],p,hp⟩
  | node m sub rest ihs ihr =>
    simp only [entries,List.mem_cons,List.mem_append] at h
    rcases h with rfl | h | h
    · exact ⟨m,by simp [names],[],rfl⟩
    · obtain ⟨n,-,p,hp⟩ := ihs (pre++[m]) h
      exact ⟨m,by simp [names],n::p,by simp [hp]⟩
    · obtain ⟨n,hn,p,hp⟩ := ihr pre h
      exact ⟨n,by simp [names,hn],p,hp⟩

/-- The vertices in preorder are those that stand at some path. -/
theorem mem_entries_leaf {f : Forest ν α} (hf : f.Distinct) {pre p : List ν} {a : α} :
    (pre++p,Sum.inl a) ∈ f.entries pre ↔ f.look p = some (some a) := by
  induction f generalizing pre p with
  | nil => cases p <;> simp [entries,look]
  | leaf m b rest ih =>
    cases p with
    | nil =>
      simp only [entries,List.mem_cons,ih hf.2,look_nil_path]
      simp
    | cons n p =>
      simp only [entries,List.mem_cons,ih hf.2,look]
      by_cases hm : m = n
      · subst hm
        rw [(look_eq_none_of_not_mem hf.1 p).1]
        by_cases hp : p = [] <;> simp [hp,eq_comm]
      · simp [hm,Ne.symm hm]
  | node m sub rest ihs ihr =>
    cases p with
    | nil =>
      simp only [entries,List.mem_cons,List.mem_append,ihr hf.2.2,look_nil_path]
      simp only [Prod.mk.injEq,reduceCtorEq,and_false,Option.some.injEq,or_false,false_or,iff_false]
      intro h
      obtain ⟨n,-,q,hq⟩ := entries_append _ _ h
      simpa using congrArg List.length hq
    | cons n p =>
      simp only [entries,List.mem_cons,List.mem_append,ihr hf.2.2,look]
      by_cases hm : m = n
      · subst hm
        have hs : (pre++[m]++p,Sum.inl a) ∈ sub.entries (pre++[m]) ↔ sub.look p = some (some a) := ihs hf.2.1
        simp only [List.append_assoc,List.singleton_append] at hs
        simp [(look_eq_none_of_not_mem hf.1 p).1,hs]
      · have hs : (pre++n::p,Sum.inl a) ∉ sub.entries (pre++[m]) := by
          intro h
          obtain ⟨x,-,q,hq⟩ := entries_append _ _ h
          simp only [List.append_assoc,List.singleton_append,List.append_cancel_left_eq,List.cons.injEq] at hq
          exact hm hq.1.symm
        simp [hm,hs]

theorem mem_entries_node {f : Forest ν α} (hf : f.Distinct) {pre p : List ν} {s : Forest ν α} :
    (pre++p,Sum.inr s) ∈ f.entries pre ↔ p ≠ [] ∧ f.sub? p = some s := by
  induction f generalizing pre p with
  | nil => cases p <;> simp [entries,sub?]
  | leaf m b rest ih =>
    cases p with
    | nil =>
      simp only [entries,List.mem_cons,ih hf.2]
      simp
    | cons n p =>
      simp only [entries,List.mem_cons,ih hf.2,sub?]
      by_cases hm : m = n
      · subst hm
        simp [(look_eq_none_of_not_mem hf.1 p).2]
      · simp [hm]
  | node m sub rest ihs ihr =>
    cases p with
    | nil =>
      simp only [entries,List.mem_cons,List.mem_append,ihr hf.2.2]
      simp only [ne_eq,not_true_eq_false,false_and,iff_false,or_false,not_or]
      refine ⟨by simp,fun h => ?_⟩
      obtain ⟨n,-,q,hq⟩ := entries_append _ _ h
      simpa using congrArg List.length hq
    | cons n p =>
      simp only [entries,List.mem_cons,List.mem_append,ihr hf.2.2,sub?]
      by_cases hm : m = n
      · subst hm
        have hs : (pre++[m]++p,Sum.inr s) ∈ sub.entries (pre++[m]) ↔ p ≠ [] ∧ sub.sub? p = some s := ihs hf.2.1
        simp only [List.append_assoc,List.singleton_append] at hs
        rw [hs]
        cases p with
        | nil => simp [(look_eq_none_of_not_mem hf.1 []).2,eq_comm]
        | cons y p => simp [(look_eq_none_of_not_mem hf.1 (y::p)).2]
      · have hs : (pre++n::p,Sum.inr s) ∉ sub.entries (pre++[m]) := by
          intro h
          obtain ⟨x,-,q,hq⟩ := entries_append _ _ h
          simp only [List.append_assoc,List.singleton_append,List.append_cancel_left_eq,List.cons.injEq] at hq
          exact hm hq.1.symm
        have hm' : ¬n = m := fun h => hm h.symm
        simp [hm,hm',hs]

section Map
variable (g : α → β)

omit [DecidableEq ν]

theorem names_map (f : Forest ν α) : (f.map g).names = f.names := by
  induction f with
  | nil => rfl
  | leaf n a rest ih => rw [map,names,names,ih]
  | node n sub rest _ ih => rw [map,names,names,ih]

theorem Distinct.map {f : Forest ν α} (h : f.Distinct) : (f.map g).Distinct := by
  induction f with
  | nil => trivial
  | leaf n a rest ih => exact ⟨(names_map g rest).symm ▸ h.1,ih h.2⟩
  | node n sub rest ihs ihr => exact ⟨(names_map g rest).symm ▸ h.1,ihs h.2.1,ihr h.2.2⟩

theorem AllNames.map {P : ν → Prop} {f : Forest ν α} (h : f.AllNames P) : (f.map g).AllNames P := by
  induction f with
  | nil => trivial
  | leaf n a rest ih => exact ⟨h.1,ih h.2⟩
  | node n sub rest ihs ihr => exact ⟨h.1,ihs h.2.1,ihr h.2.2⟩

end Map

section Sorted
variable (lt : ν × Bool → ν × Bool → Bool)

omit [DecidableEq ν] in
theorem mem_names_insertLeaf {n m : ν} {a : α} {f : Forest ν α} :
    m ∈ (f.insertLeaf lt n a).names ↔ m = n ∨ m ∈ f.names := by
  induction f with
  | nil => simp [insertLeaf,names]
  | leaf k b rest ih =>
    unfold insertLeaf
    split <;> simp [names,ih]
    tauto
  | node k sub rest _ ih =>
    unfold insertLeaf
    split <;> simp [names,ih]
    tauto

omit [DecidableEq ν] in
theorem mem_names_insertNode {n m : ν} {s f : Forest ν α} :
    m ∈ (insertNode lt n s f).names ↔ m = n ∨ m ∈ f.names := by
  induction f with
  | nil => simp [insertNode,names]
  | leaf k b rest ih =>
    unfold insertNode
    split <;> simp [names,ih]
    tauto
  | node k sub rest _ ih =>
    unfold insertNode
    split <;> simp [names,ih]
    tauto

omit [DecidableEq ν] in
theorem mem_names_sort {m : ν} {f : Forest ν α} : m ∈ (f.sort lt).names ↔ m ∈ f.names := by
  induction f with
  | nil => rfl
  | leaf n a rest ih => simp [sort,mem_names_insertLeaf,names,ih]
  | node n sub rest _ ih => simp [sort,mem_names_insertNode,names,ih]

omit [DecidableEq ν] in
theorem Distinct.insertLeaf {n : ν} {a : α} {f : Forest ν α} (hn : n ∉ f.names) (hf : f.Distinct) :
    (f.insertLeaf lt n a).Distinct := by
  induction f with
  | nil => exact ⟨by simp [names],trivial⟩
  | leaf k b rest ih =>
    simp only [names,List.mem_cons,not_or] at hn
    unfold Forest.insertLeaf
    split
    · exact ⟨by simpa [mem_names_insertLeaf] using ⟨fun h => hn.1 h.symm,hf.1⟩,ih hn.2 hf.2⟩
    · exact ⟨by simpa [names] using hn,hf⟩
  | node k sub rest _ ih =>
    simp only [names,List.mem_cons,not_or] at hn
    unfold Forest.insertLeaf
    split
    · exact ⟨by simpa [mem_names_insertLeaf] using ⟨fun h => hn.1 h.symm,hf.1⟩,hf.2.1,ih hn.2 hf.2.2⟩
    · exact ⟨by simpa [names] using hn,hf⟩

omit [DecidableEq ν] in
theorem Distinct.insertNode {n : ν} {s f : Forest ν α} (hn : n ∉ f.names) (hs : s.Distinct) (hf : f.Distinct) :
    (Forest.insertNode lt n s f).Distinct := by
  induction f with
  | nil => exact ⟨by simp [names],hs,trivial⟩
  | leaf k b rest ih =>
    simp only [names,List.mem_cons,not_or] at hn
    unfold Forest.insertNode
    split
    · exact ⟨by simpa [mem_names_insertNode] using ⟨fun h => hn.1 h.symm,hf.1⟩,ih hn.2 hf.2⟩
    · exact ⟨by simpa [names] using hn,hs,hf⟩
  | node k sub rest _ ih =>
    simp only [names,List.mem_cons,not_or] at hn
    unfold Forest.insertNode
    split
    · exact ⟨by simpa [mem_names_insertNode] using ⟨fun h => hn.1 h.symm,hf.1⟩,hf.2.1,ih hn.2 hf.2.2⟩
    · exact ⟨by simpa [names] using hn,hs,hf⟩

omit [DecidableEq ν] in
theorem Distinct.sort {f : Forest ν α} (hf : f.Distinct) : (f.sort lt).Distinct := by
  induction f with
  | nil => trivial
  | leaf n a rest ih => exact Distinct.insertLeaf lt (by simpa [mem_names_sort] using hf.1) (ih hf.2)
  | node n sub rest ihs ihr =>
    exact Distinct.insertNode lt (by simpa [mem_names_sort] using hf.1) (ihs hf.2.1) (ihr hf.2.2)

theorem look_insertLeaf {n : ν} {a : α} {f : Forest ν α} (hn : n ∉ f.names) (q : List ν) :
    (f.insertLeaf lt n a).look q = (leaf n a f).look q := by
  induction f with
  | nil => rfl
  | leaf k b rest ih =>
    simp only [names,List.mem_cons,not_or] at hn
    unfold Forest.insertLeaf
    split
    · cases q with
      | nil => simp
      | cons x q =>
        have hnk : k = x → n ≠ x := fun h h' => hn.1 (h'.trans h.symm)
        simp only [look,ih hn.2]
        grind
    · rfl
  | node k sub rest _ ih =>
    simp only [names,List.mem_cons,not_or] at hn
    unfold Forest.insertLeaf
    split
    · cases q with
      | nil => simp
      | cons x q =>
        have hnk : k = x → n ≠ x := fun h h' => hn.1 (h'.trans h.symm)
        simp only [look,ih hn.2]
        grind
    · rfl

theorem look_insertNode {n : ν} {s f : Forest ν α} (hn : n ∉ f.names) (q : List ν) :
    (insertNode lt n s f).look q = (node n s f).look q := by
  induction f with
  | nil => rfl
  | leaf k b rest ih =>
    simp only [names,List.mem_cons,not_or] at hn
    unfold Forest.insertNode
    split
    · cases q with
      | nil => simp
      | cons x q =>
        have hnk : k = x → n ≠ x := fun h h' => hn.1 (h'.trans h.symm)
        simp only [look,ih hn.2]
        grind
    · rfl
  | node k sub rest _ ih =>
    simp only [names,List.mem_cons,not_or] at hn
    unfold Forest.insertNode
    split
    · cases q with
      | nil => simp
      | cons x q =>
        have hnk : k = x → n ≠ x := fun h h' => hn.1 (h'.trans h.symm)
        simp only [look,ih hn.2]
        grind
    · rfl

/-- Sorting moves nothing to another path. -/
theorem look_sort {f : Forest ν α} (hf : f.Distinct) (q : List ν) : (f.sort lt).look q = f.look q := by
  induction f generalizing q with
  | nil => rfl
  | leaf n a rest ih =>
    rw [sort,look_insertLeaf lt (by simpa [mem_names_sort] using hf.1)]
    cases q with
    | nil => simp
    | cons x q => simp [look,ih hf.2]
  | node n sub rest ihs ihr =>
    rw [sort,look_insertNode lt (by simpa [mem_names_sort] using hf.1)]
    cases q with
    | nil => simp
    | cons x q => simp [look,ihs hf.2.1,ihr hf.2.2]

end Sorted
end Distinct
end Forest
end Lib
end Libbit

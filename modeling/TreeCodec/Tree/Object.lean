import TreeCodec.Tree

/-!
# Objects

Look-up and insertion in the entries of an object. Keys are compared by code
point, which is also the order of their UTF-8 bytes.

* `Object.find?_insert`: insertion answers for its own key and changes no other;
* `Object.Sorted.insert`: insertion keeps the entries by increasing key;
* `Object.find?_extend`: of several entries the last ones answer;
* `Object.Sorted.ext`: look-up tells objects apart.
-/

namespace TreeCodec.Object

/-- The tree under a key. -/
def find? (o : Object) (key : String) : Option Tree := o.lookup key

def keys (o : Object) : List String := o.map (·.1)

/-- Puts a tree under a key, in place of one that is already there. -/
def insert (key : String) (t : Tree) : Object → Object
  | [] => [(key, t)]
  | (k, u) :: rest =>
    if key < k then (key, t) :: (k, u) :: rest
    else if key = k then (key, t) :: rest
    else (k, u) :: insert key t rest

/-- Puts each of some entries, the last of equal keys staying. -/
def extend (o : Object) (entries : List (String × Tree)) : Object :=
  entries.foldl (fun o e => o.insert e.1 e.2) o

/-- The object of some entries in any order, the last of equal keys staying. -/
def ofList (entries : List (String × Tree)) : Object := extend [] entries

/-- The entries stand by increasing key, so that no key stands twice. -/
def Sorted (o : Object) : Prop := o.keys.Pairwise (· < ·)

instance (o : Object) : Decidable o.Sorted := inferInstanceAs (Decidable (o.keys.Pairwise (· < ·)))

/-! ## Laws -/

@[simp] theorem find?_nil (key : String) : find? [] key = none := rfl

theorem find?_cons (k : String) (u : Tree) (rest : Object) (key : String) :
    find? ((k, u) :: rest) key = if key = k then some u else find? rest key := by
  simp only [find?, List.lookup_cons]
  split <;> simp_all

/-- Insertion answers for its own key and changes no other. -/
theorem find?_insert (o : Object) (key : String) (t : Tree) (other : String) :
    (o.insert key t).find? other = if other = key then some t else o.find? other := by
  induction o with
  | nil => simp [insert, find?_cons]
  | cons e rest ih =>
    obtain ⟨k, u⟩ := e
    simp only [insert]
    split
    · simp only [find?_cons]
    · split
      · rename_i h
        subst h
        simp only [find?_cons]
        split <;> rfl
      · rename_i h
        simp only [find?_cons, ih]
        by_cases hk : other = k
        · subst hk
          simp [Ne.symm h]
        · simp [hk]

theorem mem_keys_insert (o : Object) (key : String) (t : Tree) (other : String) :
    other ∈ (o.insert key t).keys ↔ other = key ∨ other ∈ o.keys := by
  induction o with
  | nil => simp [insert, keys]
  | cons e rest ih =>
    obtain ⟨k, u⟩ := e
    simp only [insert]
    split
    · simp [keys]
    · split
      · rename_i h
        subst h
        simp [keys]
      · simp only [keys, List.map_cons, List.mem_cons] at ih ⊢
        rw [ih]
        constructor <;> rintro (h | h | h) <;> simp [h]

theorem Sorted.insert {o : Object} (h : o.Sorted) (key : String) (t : Tree) :
    (o.insert key t).Sorted := by
  induction o with
  | nil => simp [Object.insert, Sorted, keys]
  | cons e rest ih =>
    obtain ⟨k, u⟩ := e
    simp only [Sorted, keys, List.map_cons, List.pairwise_cons] at h
    simp only [Object.insert]
    split
    · rename_i hk
      simp only [Sorted, keys, List.map_cons, List.pairwise_cons, List.mem_cons]
      refine ⟨?_, h.1, h.2⟩
      rintro x (rfl | hx)
      · exact hk
      · exact String.lt_trans hk (h.1 x hx)
    · rename_i hk
      split
      · rename_i heq
        subst heq
        simpa only [Sorted, keys, List.map_cons, List.pairwise_cons] using h
      · rename_i hne
        have hlt : k < key := by
          rcases Std.lt_trichotomy k key with hc | hc | hc
          · exact hc
          · exact absurd hc.symm hne
          · exact absurd hc hk
        simp only [Sorted, keys, List.map_cons, List.pairwise_cons]
        refine ⟨fun x hx => ?_, ih h.2⟩
        rcases (mem_keys_insert rest key t x).1 hx with rfl | hx
        · exact hlt
        · exact h.1 x hx

theorem Sorted.extend {o : Object} (h : o.Sorted) (entries : List (String × Tree)) :
    (o.extend entries).Sorted := by
  induction entries generalizing o with
  | nil => exact h
  | cons e rest ih => exact ih (h.insert e.1 e.2)

theorem sorted_ofList (entries : List (String × Tree)) : (ofList entries).Sorted :=
  Sorted.extend (by simp [Sorted, keys]) entries

/-! ## Look-up after several insertions -/

theorem extend_cons (o : Object) (e : String × Tree) (es : List (String × Tree)) :
    extend o (e :: es) = extend (o.insert e.1 e.2) es := rfl

theorem ofList_cons (e : String × Tree) (es : List (String × Tree)) :
    ofList (e :: es) = extend [e] es := rfl

theorem extend_append (o : Object) (es es' : List (String × Tree)) :
    extend o (es ++ es') = extend (extend o es) es' :=
  List.foldl_append ..

/-- What is put into an object hides what was there. -/
theorem find?_extend (o : Object) (es : List (String × Tree)) (key : String) :
    (extend o es).find? key = ((ofList es).find? key).or (o.find? key) := by
  induction es generalizing o with
  | nil => rfl
  | cons e es ih =>
    rw [extend_cons, ofList_cons, ih (o.insert e.1 e.2), ih [e], find?_insert, Option.or_assoc]
    congr 1
    rw [find?_cons]
    split <;> rfl

theorem find?_eq_none_iff {o : Object} {key : String} : o.find? key = none ↔ key ∉ o.keys := by
  induction o with
  | nil => simp [keys]
  | cons e rest ih =>
    obtain ⟨k, u⟩ := e
    rw [find?_cons]
    simp only [keys, List.map_cons, List.mem_cons, not_or] at ih ⊢
    split
    · simp [*]
    · simp [*]

theorem mem_keys_of_find? {o : Object} {key : String} {t : Tree} (h : o.find? key = some t) :
    key ∈ o.keys := by
  refine Classical.byContradiction fun hk => ?_
  rw [find?_eq_none_iff.mpr hk] at h
  cases h

theorem mem_keys_extend (o : Object) (es : List (String × Tree)) (key : String) :
    key ∈ (extend o es).keys ↔ key ∈ es.map (·.1) ∨ key ∈ o.keys := by
  induction es generalizing o with
  | nil => simp [extend]
  | cons e es ih =>
    rw [extend_cons, ih, mem_keys_insert, List.map_cons, List.mem_cons]
    exact or_left_comm.trans or_assoc.symm

/-- A fresh entry is put among the others. -/
theorem perm_insert {o : Object} {key : String} (t : Tree) (h : key ∉ o.keys) :
    (o.insert key t).Perm ((key, t) :: o) := by
  induction o with
  | nil => exact .refl _
  | cons e rest ih =>
    obtain ⟨k, u⟩ := e
    simp only [keys, List.map_cons, List.mem_cons, not_or] at h
    simp only [insert]
    split
    · exact .refl _
    · rw [if_neg h.1]
      exact ((ih h.2).cons _).trans (.swap ..)

/-! ## Sorted objects -/

theorem Sorted.tail {e : String × Tree} {o : Object} (h : Sorted (e :: o)) : Sorted o :=
  (List.pairwise_cons.mp h).2

theorem Sorted.head_lt {e : String × Tree} {o : Object} (h : Sorted (e :: o)) :
    ∀ key ∈ o.keys, e.1 < key :=
  (List.pairwise_cons.mp h).1

theorem Sorted.head_not_mem {e : String × Tree} {o : Object} (h : Sorted (e :: o)) :
    e.1 ∉ o.keys :=
  fun hk => String.lt_irrefl _ (h.head_lt _ hk)

/-- Each entry answers for its key. -/
theorem Sorted.find?_of_mem {o : Object} {key : String} {t : Tree} (h : o.Sorted)
    (mem : (key, t) ∈ o) : o.find? key = some t := by
  induction o with
  | nil => cases mem
  | cons e rest ih =>
    rw [find?_cons]
    rcases List.mem_cons.mp mem with rfl | mem
    · exact if_pos rfl
    · have other : key ≠ e.1 := fun same =>
        h.head_not_mem (same ▸ List.mem_map.mpr ⟨_, mem, rfl⟩)
      rw [if_neg other, ih h.tail mem]

/-- Sorted objects are told apart by what is under their keys. -/
theorem Sorted.ext {o o' : Object} (h : o.Sorted) (h' : o'.Sorted)
    (same : ∀ key, o.find? key = o'.find? key) : o = o' := by
  induction o generalizing o' with
  | nil =>
    cases o' with
    | nil => rfl
    | cons e' rest' =>
      have none := same e'.1
      rw [find?_cons, if_pos rfl] at none
      cases none
  | cons e rest ih =>
    obtain ⟨k, u⟩ := e
    cases o' with
    | nil =>
      have some := same k
      rw [find?_cons, if_pos rfl] at some
      cases some
    | cons e' rest' =>
      obtain ⟨k', u'⟩ := e'
      have mem : k ∈ keys ((k', u') :: rest') :=
        mem_keys_of_find? ((same k).symm.trans (by rw [find?_cons, if_pos rfl]))
      have mem' : k' ∈ keys ((k, u) :: rest) :=
        mem_keys_of_find? ((same k').trans (by rw [find?_cons, if_pos rfl]))
      -- The least keys of both objects are the same.
      have heads : k = k' := by
        rcases List.mem_cons.mp mem with rfl | hm
        · rfl
        · rcases List.mem_cons.mp mem' with rfl | hm'
          · rfl
          · exact absurd (h.head_lt _ hm') (String.lt_asymm (h'.head_lt _ hm))
      subst heads
      have first := same k
      rw [find?_cons, find?_cons, if_pos rfl, if_pos rfl] at first
      cases first
      congr 1
      refine ih h.tail h'.tail fun key => ?_
      by_cases hk : key = k
      · subst hk
        rw [find?_eq_none_iff.mpr h.head_not_mem, find?_eq_none_iff.mpr h'.head_not_mem]
      · have next := same key
        rwa [find?_cons, find?_cons, if_neg hk, if_neg hk] at next

theorem Sorted.find?_ofList {o : Object} (h : o.Sorted) (key : String) :
    (ofList o).find? key = o.find? key := by
  induction o with
  | nil => rfl
  | cons e rest ih =>
    rw [ofList_cons, find?_extend, ih h.tail, find?_cons, find?_cons, find?_nil]
    split
    · subst key
      rw [find?_eq_none_iff.mpr h.head_not_mem]
      rfl
    · rw [Option.or_none]

/-- A sorted object is put together from its entries. -/
theorem Sorted.ofList_eq {o : Object} (h : o.Sorted) : ofList o = o :=
  Sorted.ext (sorted_ofList o) h h.find?_ofList

/-- Entries may be put together first. -/
theorem Sorted.extend_ofList {o : Object} (h : o.Sorted) (es : List (String × Tree)) :
    o.extend (ofList es) = o.extend es := by
  refine Sorted.ext (h.extend _) (h.extend _) fun key => ?_
  rw [Object.find?_extend, (sorted_ofList es).find?_ofList, ← Object.find?_extend]

end TreeCodec.Object

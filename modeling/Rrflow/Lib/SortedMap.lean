import Mathlib

/-!
Finite maps as strictly sorted association lists.

An ordered map of an imperative program is observed in two ways: by lookup and
by iteration in key order. A sorted list gives both, and its invariant is a
field of the structure, so that every map that can be written down at all is
sorted and two maps with the same lookups are equal (`SortedMap.ext_find?`).
All operations are structurally recursive and evaluate in the kernel.
-/

/-- A finite map from an ordered key type, kept as its sorted list of
entries. -/
structure SortedMap (κ : Type*) (β : Type*) [LinearOrder κ] where
  /-- The entries in key order. -/
  toList : List (κ × β)
  /-- Keys increase strictly along the list. -/
  sorted : toList.Pairwise (fun a b => a.1 < b.1)

namespace SortedMap

open List

variable {κ : Type*} {β γ : Type*} [LinearOrder κ]

def lookupList (k : κ) : List (κ × β) → Option β
  | [] => none
  | (k', b) :: rest => if k = k' then some b else lookupList k rest

/-- Sorted insertion, replacing the value of an existing key. -/
def insertList (k : κ) (b : β) : List (κ × β) → List (κ × β)
  | [] => [(k, b)]
  | (k', b') :: rest =>
    if k < k' then (k, b) :: (k', b') :: rest
    else if k' < k then (k', b') :: insertList k b rest
    else (k, b) :: rest

variable {k : κ} {b : β} {l : List (κ × β)}

theorem mem_insertList {x : κ × β} (h : x ∈ insertList k b l) : x = (k, b) ∨ x ∈ l := by
  induction l with
  | nil => exact Or.inl (by simpa [insertList] using h)
  | cons y rest ih =>
    obtain ⟨k', b'⟩ := y
    simp only [insertList] at h
    split at h
    · rcases mem_cons.mp h with rfl | h
      · exact Or.inl rfl
      · exact Or.inr h
    · split at h
      · rcases mem_cons.mp h with rfl | h
        · exact Or.inr (mem_cons_self ..)
        · exact (ih h).imp id (mem_cons_of_mem _)
      · rcases mem_cons.mp h with rfl | h
        · exact Or.inl rfl
        · exact Or.inr (mem_cons_of_mem _ h)

theorem pairwise_insertList (h : l.Pairwise (fun x y => x.1 < y.1)) :
    (insertList k b l).Pairwise (fun x y => x.1 < y.1) := by
  induction l with
  | nil => simp [insertList]
  | cons y rest ih =>
    obtain ⟨k', b'⟩ := y
    rw [pairwise_cons] at h
    simp only [insertList]
    split
    · rename_i hlt
      refine pairwise_cons.mpr ⟨?_, pairwise_cons.mpr h⟩
      intro x hx
      rcases mem_cons.mp hx with rfl | hx
      · exact hlt
      · exact hlt.trans (h.1 x hx)
    · split
      · rename_i hlt
        refine pairwise_cons.mpr ⟨?_, ih h.2⟩
        intro x hx
        rcases mem_insertList hx with rfl | hx
        · exact hlt
        · exact h.1 x hx
      · rename_i hge hle
        have heq : k = k' := le_antisymm (not_lt.mp hle) (not_lt.mp hge)
        subst heq
        exact pairwise_cons.mpr ⟨h.1, h.2⟩

theorem lookupList_insertList (k k₀ : κ) (b : β) (l : List (κ × β)) :
    lookupList k (insertList k₀ b l) = if k = k₀ then some b else lookupList k l := by
  induction l with
  | nil => simp [insertList, lookupList]
  | cons y rest ih =>
    obtain ⟨k', b'⟩ := y
    simp only [insertList]
    split
    · rfl
    · rename_i hge
      split
      · rename_i hlt
        simp only [lookupList, ih]
        by_cases hk : k = k'
        · subst hk; simp [hlt.ne]
        · simp [hk]
      · rename_i hle
        have heq : k₀ = k' := le_antisymm (not_lt.mp hle) (not_lt.mp hge)
        subst heq
        simp only [lookupList]
        split <;> rfl

theorem mem_of_lookupList (h : lookupList k l = some b) : (k, b) ∈ l := by
  induction l with
  | nil => simp [lookupList] at h
  | cons y rest ih =>
    obtain ⟨k', b'⟩ := y
    simp only [lookupList] at h
    split at h
    · rename_i heq
      subst heq
      rw [Option.some.inj h]
      exact mem_cons_self ..
    · exact mem_cons_of_mem _ (ih h)

theorem lookupList_of_mem (hl : l.Pairwise (fun x y => x.1 < y.1)) (h : (k, b) ∈ l) :
    lookupList k l = some b := by
  induction l with
  | nil => simp at h
  | cons y rest ih =>
    obtain ⟨k', b'⟩ := y
    rw [pairwise_cons] at hl
    rcases mem_cons.mp h with heq | h
    · cases heq
      simp [lookupList]
    · have hlt : k' < k := hl.1 _ h
      simp only [lookupList, if_neg hlt.ne']
      exact ih hl.2 h

/-! ### The operations of a map -/

def empty : SortedMap κ β := ⟨[], List.Pairwise.nil⟩

instance : EmptyCollection (SortedMap κ β) := ⟨empty⟩

instance : Inhabited (SortedMap κ β) := ⟨empty⟩

def find? (m : SortedMap κ β) (k : κ) : Option β := lookupList k m.toList

def contains (m : SortedMap κ β) (k : κ) : Bool := (m.find? k).isSome

/-- Insertion, replacing the value of an existing key. -/
def insert (m : SortedMap κ β) (k : κ) (b : β) : SortedMap κ β :=
  ⟨insertList k b m.toList, pairwise_insertList m.sorted⟩

def filter (m : SortedMap κ β) (p : κ → β → Bool) : SortedMap κ β :=
  ⟨m.toList.filter (fun x => p x.1 x.2), m.sorted.filter _⟩

def erase (m : SortedMap κ β) (k : κ) : SortedMap κ β := m.filter (fun k' _ => k' ≠ k)

def mapValues (m : SortedMap κ β) (f : β → γ) : SortedMap κ γ :=
  ⟨m.toList.map fun x => (x.1, f x.2), pairwise_map.mpr m.sorted⟩

/-- The entries whose value has an image, with that image. -/
def filterMap (m : SortedMap κ β) (f : β → Option γ) : SortedMap κ γ :=
  ⟨m.toList.filterMap fun x => (f x.2).map (x.1, ·),
    m.sorted.filterMap _ fun x y hxy c hc d hd => by
      obtain ⟨_, -, rfl⟩ := Option.map_eq_some_iff.mp hc
      obtain ⟨_, -, rfl⟩ := Option.map_eq_some_iff.mp hd
      exact hxy⟩

def keys (m : SortedMap κ β) : List κ := m.toList.map Prod.fst

def values (m : SortedMap κ β) : List β := m.toList.map Prod.snd

def ofList (l : List (κ × β)) : SortedMap κ β := l.foldl (fun m x => m.insert x.1 x.2) empty

@[ext]
theorem ext {m n : SortedMap κ β} (h : m.toList = n.toList) : m = n := by
  cases m; cases n; simpa using h

instance [DecidableEq β] : DecidableEq (SortedMap κ β) := fun _ _ =>
  decidable_of_iff _ ⟨ext, congrArg toList⟩

@[simp] theorem emptyCollection_eq : (∅ : SortedMap κ β) = empty := rfl

@[simp] theorem toList_empty : (empty : SortedMap κ β).toList = [] := rfl

@[simp] theorem find?_empty (k : κ) : (empty : SortedMap κ β).find? k = none := rfl

@[simp] theorem keys_empty : (empty : SortedMap κ β).keys = [] := rfl

variable {m : SortedMap κ β} {k : κ}

theorem mem_toList_iff {b : β} : (k, b) ∈ m.toList ↔ m.find? k = some b :=
  ⟨lookupList_of_mem m.sorted, mem_of_lookupList⟩

theorem find?_insert (m : SortedMap κ β) (k k₀ : κ) (b : β) :
    (m.insert k₀ b).find? k = if k = k₀ then some b else m.find? k :=
  lookupList_insertList k k₀ b m.toList

@[simp] theorem find?_insert_self (m : SortedMap κ β) (k : κ) (b : β) :
    (m.insert k b).find? k = some b := by
  rw [find?_insert, if_pos rfl]

theorem find?_insert_of_ne (m : SortedMap κ β) {k k₀ : κ} (b : β) (h : k ≠ k₀) :
    (m.insert k₀ b).find? k = m.find? k := by
  rw [find?_insert, if_neg h]

theorem find?_insert_of_none {k k₀ : κ} {b b₀ : β} (hnone : m.find? k = none)
    (h : m.find? k₀ = some b₀) : (m.insert k b).find? k₀ = some b₀ := by
  rw [find?_insert]
  split
  · rename_i heq
    rw [heq, hnone] at h
    simp at h
  · exact h

theorem eq_or_find?_of_insert {k k₀ : κ} {b b₀ : β} (h : (m.insert k b).find? k₀ = some b₀) :
    k₀ = k ∧ b₀ = b ∨ m.find? k₀ = some b₀ := by
  rw [find?_insert] at h
  split at h
  · rename_i heq
    exact Or.inl ⟨heq, (Option.some.inj h).symm⟩
  · exact Or.inr h

theorem mem_keys_iff : k ∈ m.keys ↔ ∃ b, m.find? k = some b := by
  simp only [keys, mem_map, Prod.exists, exists_and_right, exists_eq_right, mem_toList_iff]

theorem find?_eq_none_iff : m.find? k = none ↔ k ∉ m.keys := by
  rw [mem_keys_iff]
  cases m.find? k <;> simp

theorem find?_filter_eq_some {p : κ → β → Bool} {b : β} :
    (m.filter p).find? k = some b ↔ m.find? k = some b ∧ p k b = true := by
  rw [← mem_toList_iff, ← mem_toList_iff]
  simp [filter, mem_filter]

theorem find?_erase (m : SortedMap κ β) (k k₀ : κ) :
    (m.erase k₀).find? k = if k = k₀ then none else m.find? k := by
  apply Option.ext
  intro b
  rw [erase, find?_filter_eq_some]
  by_cases h : k = k₀ <;> simp [h]

@[simp] theorem find?_mapValues (m : SortedMap κ β) (f : β → γ) (k : κ) :
    (m.mapValues f).find? k = (m.find? k).map f := by
  apply Option.ext
  intro c
  rw [← mem_toList_iff, Option.map_eq_some_iff]
  simp [mapValues, mem_toList_iff]

@[simp] theorem find?_filterMap (m : SortedMap κ β) (f : β → Option γ) (k : κ) :
    (m.filterMap f).find? k = (m.find? k).bind f := by
  apply Option.ext
  intro c
  rw [← mem_toList_iff, Option.bind_eq_some_iff]
  simp [filterMap, mem_toList_iff, Option.map_eq_some_iff]

/-- A put or, without a value, a delete. -/
def assign (m : SortedMap κ β) (k : κ) : Option β → SortedMap κ β
  | some b => m.insert k b
  | none => m.erase k

theorem find?_assign (m : SortedMap κ β) (k k₀ : κ) (v : Option β) :
    (m.assign k₀ v).find? k = if k = k₀ then v else m.find? k := by
  cases v with
  | none => exact m.find?_erase k k₀
  | some b => exact m.find?_insert k k₀ b

@[simp] theorem assign_some (m : SortedMap κ β) (k : κ) (b : β) : m.assign k (some b) = m.insert k b :=
  rfl

@[simp] theorem assign_none (m : SortedMap κ β) (k : κ) : m.assign k none = m.erase k := rfl

/-- Maps are determined by their lookups. -/
theorem ext_find? {m n : SortedMap κ β} (h : ∀ k, m.find? k = n.find? k) : m = n := by
  apply ext
  have hmem : ∀ x, x ∈ m.toList ↔ x ∈ n.toList := by
    rintro ⟨k, b⟩
    rw [mem_toList_iff, mem_toList_iff, h]
  have hnd (p : SortedMap κ β) : p.toList.Nodup :=
    p.sorted.imp fun hab => by rintro rfl; exact lt_irrefl _ hab
  exact List.Perm.eq_of_pairwise (fun a b _ _ h₁ h₂ => absurd h₁ h₂.asymm) m.sorted n.sorted
    ((perm_ext_iff_of_nodup (hnd m) (hnd n)).mpr hmem)

@[simp] theorem filter_filter_self (m : SortedMap κ β) (p : κ → β → Bool) :
    (m.filter p).filter p = m.filter p :=
  ext (by simp [filter])

section Touch

/-- At most one put or delete. -/
def touch (m : SortedMap κ β) : Option (κ × Option β) → SortedMap κ β
  | none => m
  | some (k, v) => m.assign k v

variable {m : SortedMap κ β} {t : Option (κ × Option β)}

/-- What is put or deleted does not depend on what is there: a filter that is applied afterwards
may as well be applied before too. -/
theorem filter_touch_filter {p : κ → β → Bool} :
    ((m.filter p).touch t).filter p = (m.touch t).filter p := by
  rcases t with - | ⟨k₀, v⟩
  · exact m.filter_filter_self p
  · refine ext_find? fun k => Option.ext fun b => ?_
    simp only [touch, find?_filter_eq_some, find?_assign]
    by_cases h : k = k₀
    · simp [h]
    · simp [h, find?_filter_eq_some]

/-- A map whose values carry their keys stays one. -/
theorem keyed_touch {key : β → κ} (h : ∀ k b, m.find? k = some b → key b = k)
    (ht : ∀ k b, t = some (k, some b) → key b = k) :
    ∀ k b, (m.touch t).find? k = some b → key b = k := by
  rcases t with - | ⟨k₀, v⟩
  · exact h
  · intro k b hfind
    rw [touch, find?_assign] at hfind
    split at hfind
    next heq =>
      subst heq hfind
      exact ht k b rfl
    next => exact h k b hfind

end Touch

theorem insertList_of_forall_lt (h : ∀ x ∈ l, x.1 < k) : insertList k b l = l ++ [(k, b)] := by
  induction l with
  | nil => rfl
  | cons x rest ih =>
    have hx := h x (mem_cons_self ..)
    rw [insertList, if_neg hx.asymm, if_pos hx, ih fun y hy => h y (mem_cons_of_mem _ hy),
      cons_append]

/-- A key after all others is added at the end. -/
theorem toList_insert_of_forall_lt {b : β} (h : ∀ x ∈ m.toList, x.1 < k) :
    (m.insert k b).toList = m.toList ++ [(k, b)] :=
  insertList_of_forall_lt h

/-- Values that determine their keys come in the order of the keys. -/
theorem pairwise_values {f : β → κ} (h : ∀ k b, m.find? k = some b → f b = k) :
    m.values.Pairwise fun a b => f a < f b := by
  rw [values, pairwise_map]
  refine m.sorted.imp_of_mem ?_
  rintro ⟨k, b⟩ ⟨k', b'⟩ hb hb' hlt
  show f b < f b'
  rw [h k b (mem_toList_iff.mp hb), h k' b' (mem_toList_iff.mp hb')]
  exact hlt

theorem toList_nodup (m : SortedMap κ β) : m.toList.Nodup :=
  m.sorted.imp fun hab => by rintro rfl; exact lt_irrefl _ hab

theorem toList_perm_erase {b : β} (h : m.find? k = some b) :
    m.toList.Perm ((k, b) :: (m.erase k).toList) := by
  refine (perm_ext_iff_of_nodup m.toList_nodup
    (nodup_cons.mpr ⟨?_, (m.erase k).toList_nodup⟩)).mpr ?_
  · intro hmem
    rw [mem_toList_iff, find?_erase, if_pos rfl] at hmem
    simp at hmem
  · rintro ⟨k', b'⟩
    rw [mem_cons, mem_toList_iff, mem_toList_iff, find?_erase]
    by_cases hk : k' = k
    · subst hk
      rw [h, if_pos rfl]
      simp [eq_comm]
    · simp [hk]

theorem toList_insert_perm (m : SortedMap κ β) (k : κ) (b : β) :
    (m.insert k b).toList.Perm ((k, b) :: (m.erase k).toList) := by
  have hrest : (m.insert k b).erase k = m.erase k := by
    refine ext_find? fun k' => ?_
    rw [find?_erase, find?_erase, find?_insert]
    split <;> simp_all
  have h := toList_perm_erase (find?_insert_self m k b)
  rwa [hrest] at h

theorem erase_of_find?_eq_none (h : m.find? k = none) : m.erase k = m := by
  refine ext_find? fun k' => ?_
  rw [find?_erase]
  split
  · rename_i hk
    rw [hk, h]
  · rfl

/-- One more element of the list under a key. -/
def push (m : SortedMap κ (List β)) (k : κ) (b : β) : SortedMap κ (List β) :=
  m.insert k ((m.find? k).getD [] ++ [b])

/-- Lists of elements under their keys, each in the order in which it was given. -/
def groupBy (key : β → κ) (l : List β) : SortedMap κ (List β) :=
  l.foldl (fun m b => m.push (key b) b) empty

theorem find?_foldl_push (key : β → κ) (l : List β) (m : SortedMap κ (List β)) (k : κ) :
    (l.foldl (fun m b => m.push (key b) b) m).find? k =
      if l.filter (fun b => key b = k) = [] then m.find? k
      else some ((m.find? k).getD [] ++ l.filter (fun b => key b = k)) := by
  induction l generalizing m with
  | nil => rfl
  | cons b rest ih =>
    rw [foldl_cons, ih, push, find?_insert]
    by_cases hk : key b = k
    · subst hk
      by_cases hrest : rest.filter (fun b' => key b' = key b) = [] <;>
        simp [hrest, append_assoc]
    · have hk' : k ≠ key b := fun h => hk h.symm
      simp [hk, hk']

/-- The group of a key holds the elements with that key. -/
theorem find?_groupBy {key : β → κ} {l : List β} {group : List β} :
    (groupBy key l).find? k = some group ↔ group ≠ [] ∧ group = l.filter (fun b => key b = k) := by
  rw [groupBy, find?_foldl_push]
  by_cases hnil : l.filter (fun b => key b = k) = []
  · rw [if_pos hnil, hnil, find?_empty]
    simp
  · rw [if_neg hnil, find?_empty, Option.getD_none, nil_append, Option.some.injEq]
    constructor
    · rintro rfl
      exact ⟨hnil, rfl⟩
    · exact fun h => h.2.symm

/-- The result of an entry is found by its key among the results of all. -/
theorem find?_filterMap_toList [DecidableEq κ] {f : κ × β → Option γ} {key : γ → κ}
    (hf : ∀ x c, f x = some c → key c = x.1) {l : List (κ × β)}
    (hl : l.Pairwise fun x y => x.1 < y.1) {x : κ × β} (hx : x ∈ l) :
    (l.filterMap f).find? (fun c => decide (key c = x.1)) = f x := by
  have hrest {k : κ} {rest : List (κ × β)} (h : ∀ y ∈ rest, k < y.1) :
      (rest.filterMap f).find? (fun c => decide (key c = k)) = none := by
    rw [find?_eq_none]
    intro c hc
    obtain ⟨y, hy, hfy⟩ := mem_filterMap.mp hc
    have hlt := h y hy
    rw [← hf y c hfy] at hlt
    simpa using hlt.ne'
  induction l with
  | nil => simp at hx
  | cons y rest ih =>
    rw [pairwise_cons] at hl
    rcases mem_cons.mp hx with rfl | hx'
    · cases hfx : f x with
      | none =>
        rw [filterMap_cons_none hfx]
        exact hrest hl.1
      | some c => rw [filterMap_cons_some hfx, find?_cons_of_pos (by simp [hf x c hfx])]
    · have hne : y.1 ≠ x.1 := (hl.1 x hx').ne
      cases hfy : f y with
      | none =>
        rw [filterMap_cons_none hfy]
        exact ih hl.2 hx'
      | some c =>
        rw [filterMap_cons_some hfy, find?_cons_of_neg (by simp [hf y c hfy, hne])]
        exact ih hl.2 hx'

/-- Two passes give the same results exactly when they agree on every entry. -/
theorem filterMap_toList_eq_iff [DecidableEq κ] {m : SortedMap κ β} {f g : κ × β → Option γ}
    {key : γ → κ} (hf : ∀ x c, f x = some c → key c = x.1) (hg : ∀ x c, g x = some c → key c = x.1) :
    m.toList.filterMap f = m.toList.filterMap g ↔
      ∀ k b, m.find? k = some b → f (k, b) = g (k, b) := by
  constructor
  · intro h k b hb
    rw [← find?_filterMap_toList hf m.sorted (mem_toList_iff.mpr hb), h,
      find?_filterMap_toList hg m.sorted (mem_toList_iff.mpr hb)]
  · intro h
    exact filterMap_congr fun x hx => h x.1 x.2 (mem_toList_iff.mp hx)

/-- Maps over different key types with the same entries up to a monotone renaming
list them in the same order. -/
theorem map_toList_eq {κ' δ : Type*} [LinearOrder κ'] {m : SortedMap κ β} {n : SortedMap κ' γ}
    {e : κ → κ'} {dom : Set κ} (hdom : ∀ k b, m.find? k = some b → k ∈ dom)
    (he : StrictMonoOn e dom) {f : β → δ} {g : γ → δ}
    (h : ∀ k' d, (∃ k b, m.find? k = some b ∧ e k = k' ∧ f b = d) ↔
      ∃ c, n.find? k' = some c ∧ g c = d) :
    m.toList.map (fun x => (e x.1, f x.2)) = n.toList.map (fun x => (x.1, g x.2)) := by
  have hm : (m.toList.map fun x => (e x.1, f x.2)).Pairwise fun x y => x.1 < y.1 :=
    pairwise_map.mpr (m.sorted.imp_of_mem fun hx hy hxy =>
      he (hdom _ _ (mem_toList_iff.mp hx)) (hdom _ _ (mem_toList_iff.mp hy)) hxy)
  have hn : (n.toList.map fun x => (x.1, g x.2)).Pairwise fun x y => x.1 < y.1 :=
    pairwise_map.mpr n.sorted
  have hnodup {l : List (κ' × δ)} (hl : l.Pairwise fun x y => x.1 < y.1) : l.Nodup :=
    hl.imp fun hxy heq => (heq ▸ hxy).ne rfl
  refine ((perm_ext_iff_of_nodup (hnodup hm) (hnodup hn)).mpr ?_).eq_of_pairwise
    (fun x y _ _ hxy hyx => absurd hxy hyx.asymm) hm hn
  rintro ⟨k', d⟩
  have := h k' d
  simp only [← mem_toList_iff] at this
  simp only [mem_map, Prod.exists, Prod.mk.injEq]
  rw [this]
  simp

/-- In a list that ascends, the first element with a property is the least one. -/
theorem find?_eq_some_of_pairwise {f : β → κ} {l : List β} (h : l.Pairwise fun a b => f a < f b)
    {p : β → Bool} {a : β} :
    l.find? p = some a ↔ a ∈ l ∧ p a = true ∧ ∀ b ∈ l, p b = true → f a ≤ f b := by
  induction l with
  | nil => simp
  | cons c rest ih =>
    rw [pairwise_cons] at h
    rw [find?_cons]
    cases hc : p c with
    | true =>
      simp only [Option.some.injEq]
      constructor
      · rintro rfl
        refine ⟨mem_cons_self .., hc, fun b hb _ => ?_⟩
        rcases mem_cons.mp hb with rfl | hb
        · exact le_refl _
        · exact (h.1 b hb).le
      · rintro ⟨hmem, -, hleast⟩
        rcases mem_cons.mp hmem with rfl | hmem
        · rfl
        · exact absurd (h.1 a hmem) (not_lt.mpr (hleast c (mem_cons_self ..) hc))
    | false =>
      simp only [ih h.2, mem_cons, forall_eq_or_imp, hc, Bool.false_eq_true, false_implies,
        true_and]
      constructor
      · exact fun ⟨hmem, ha, hleast⟩ => ⟨.inr hmem, ha, hleast⟩
      · rintro ⟨rfl | hmem, ha, hleast⟩
        · rw [hc] at ha
          cases ha
        · exact ⟨hmem, ha, hleast⟩

theorem keys_pairwise (m : SortedMap κ β) : m.keys.Pairwise (· < ·) :=
  pairwise_map.mpr m.sorted

end SortedMap

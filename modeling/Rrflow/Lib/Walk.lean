import Mathlib

/-!
Depth-first walks that share one set of visited nodes.

A walk expands a node the first time it meets it, takes over the items of the
node and goes on with its successors. The recursion is bounded by fuel, because
the graph may have cycles; a walk never goes deeper than there are nodes that it
has not visited yet, so that fuel above their number changes nothing.

The main result is that the nodes of a walk are the nodes reachable from where
it starts, and its items are theirs (`exists_visitAll`).
-/

namespace Walk

open List

variable {α β ε : Type}

structure Seen (α β : Type) where
  visited : List α
  items : List β

def visit [DecidableEq α] (expand : α → Except ε (List β × List α)) :
    Nat → α → Seen α β → Except ε (Seen α β)
  | 0, _, seen => .ok seen
  | fuel + 1, node, seen =>
    if node ∈ seen.visited then .ok seen
    else do
      let (items, next) ← expand node
      next.foldlM (fun seen successor => visit expand fuel successor seen)
        ⟨node :: seen.visited, seen.items ++ items⟩

def visitAll [DecidableEq α] (expand : α → Except ε (List β × List α)) (fuel : Nat) (nodes : List α)
    (seen : Seen α β) : Except ε (Seen α β) :=
  nodes.foldlM (fun seen node => visit expand fuel node seen) seen

/-- `b` is reached from `a` by following successors. -/
abbrev Reaches (next : α → List α) : α → α → Prop := Relation.ReflTransGen fun a b => b ∈ next a

/-- What a walk from `starts` does to the nodes seen so far. -/
structure Walked (next : α → List α) (items : α → List β) (starts : List α)
    (before after : Seen α β) : Prop where
  grows : before.visited ⊆ after.visited
  begun : starts ⊆ after.visited
  reached : ∀ a ∈ after.visited, a ∈ before.visited ∨ ∃ s ∈ starts, Reaches next s a
  closed : ∀ a ∈ after.visited, a ∈ before.visited ∨ next a ⊆ after.visited
  collected : ∀ b, b ∈ after.items ↔
    b ∈ before.items ∨ ∃ a ∈ after.visited, a ∉ before.visited ∧ b ∈ items a

section Walked

variable {next : α → List α} {items : α → List β} {starts : List α} {seen : Seen α β}

theorem Walked.nil : Walked next items [] seen seen where
  grows := List.Subset.refl _
  begun := nil_subset _
  reached := fun _ ha => Or.inl ha
  closed := fun _ ha => Or.inl ha
  collected := fun b => by
    constructor
    · exact Or.inl
    · rintro (hb | ⟨a, ha, hne, -⟩)
      · exact hb
      · exact absurd ha hne

theorem Walked.visited {a : α} (h : a ∈ seen.visited) : Walked next items [a] seen seen :=
  { Walked.nil with
    begun := by simpa using h
    reached := fun _ ha => Or.inl ha }

theorem Walked.cons {a : α} {rest : List α} {middle after : Seen α β}
    (h : Walked next items [a] seen middle) (h' : Walked next items rest middle after) :
    Walked next items (a :: rest) seen after where
  grows := List.Subset.trans h.grows h'.grows
  begun := cons_subset.mpr ⟨h'.grows (h.begun (mem_singleton_self a)), h'.begun⟩
  reached := fun b hb => by
    rcases h'.reached b hb with hb | ⟨s, hs, hreach⟩
    · rcases h.reached b hb with hb | ⟨s, hs, hreach⟩
      · exact Or.inl hb
      · rw [mem_singleton] at hs
        exact Or.inr ⟨a, mem_cons_self .., hs ▸ hreach⟩
    · exact Or.inr ⟨s, mem_cons_of_mem _ hs, hreach⟩
  closed := fun b hb => by
    rcases h'.closed b hb with hb | hnext
    · exact (h.closed b hb).imp id fun hnext => List.Subset.trans hnext h'.grows
    · exact Or.inr hnext
  collected := fun b => by
    rw [h'.collected, h.collected]
    constructor
    · rintro ((hb | ⟨x, hx, hne, hb⟩) | ⟨x, hx, hne, hb⟩)
      · exact Or.inl hb
      · exact Or.inr ⟨x, h'.grows hx, hne, hb⟩
      · exact Or.inr ⟨x, hx, fun hold => hne (h.grows hold), hb⟩
    · rintro (hb | ⟨x, hx, hne, hb⟩)
      · exact Or.inl (Or.inl hb)
      · by_cases hmiddle : x ∈ middle.visited
        · exact Or.inl (Or.inr ⟨x, hmiddle, hne, hb⟩)
        · exact Or.inr ⟨x, hx, hmiddle, hb⟩

theorem Walked.expand {a : α} {after : Seen α β} (hfresh : a ∉ seen.visited)
    (h : Walked next items (next a) ⟨a :: seen.visited, seen.items ++ items a⟩ after) :
    Walked next items [a] seen after where
  grows := List.Subset.trans (subset_cons_self a seen.visited) h.grows
  begun := cons_subset.mpr ⟨h.grows (mem_cons_self ..), nil_subset _⟩
  reached := fun b hb => by
    rcases h.reached b hb with hb | ⟨s, hs, hreach⟩
    · rcases mem_cons.mp hb with rfl | hb
      · exact Or.inr ⟨b, mem_singleton_self b, .refl⟩
      · exact Or.inl hb
    · exact Or.inr ⟨a, mem_singleton_self a, .head hs hreach⟩
  closed := fun b hb => by
    rcases h.closed b hb with hb | hnext
    · rcases mem_cons.mp hb with rfl | hb
      · exact Or.inr h.begun
      · exact Or.inl hb
    · exact Or.inr hnext
  collected := fun b => by
    rw [h.collected, mem_append]
    constructor
    · rintro ((hb | hb) | ⟨x, hx, hne, hb⟩)
      · exact Or.inl hb
      · exact Or.inr ⟨a, h.grows (mem_cons_self ..), hfresh, hb⟩
      · exact Or.inr ⟨x, hx, fun hold => hne (mem_cons_of_mem _ hold), hb⟩
    · rintro (hb | ⟨x, hx, hne, hb⟩)
      · exact Or.inl (Or.inl hb)
      · by_cases hxa : x = a
        · exact Or.inl (Or.inr (hxa ▸ hb))
        · exact Or.inr ⟨x, hx, by simp [hxa, hne], hb⟩

end Walked

variable [DecidableEq α]

/-- How many of the nodes a walk can still expand. -/
def unvisited (nodes : List α) (seen : Seen α β) : Nat :=
  (nodes.filter fun a => a ∉ seen.visited).length

theorem unvisited_mono (nodes : List α) {seen seen' : Seen α β}
    (h : seen.visited ⊆ seen'.visited) : unvisited nodes seen' ≤ unvisited nodes seen := by
  refine (monotone_filter_right nodes ?_).length_le
  intro a ha
  simp only [decide_eq_true_eq] at ha ⊢
  exact fun hold => ha (h hold)

theorem unvisited_expand {nodes : List α} {seen : Seen α β} {a : α} (more : List β)
    (ha : a ∈ nodes) (hfresh : a ∉ seen.visited) :
    unvisited nodes ⟨a :: seen.visited, more⟩ < unvisited nodes seen := by
  unfold unvisited
  have hsub : (nodes.filter fun b => b ∉ a :: seen.visited) =
      (nodes.filter fun b => b ∉ seen.visited).filter fun b => b ≠ a := by
    rw [filter_filter]
    congr 1
    funext b
    simp only [mem_cons, not_or, Bool.decide_and]
  rw [hsub]
  exact length_filter_lt_length_iff_exists.mpr
    ⟨a, by simp [ha, hfresh], by simp⟩

section Run

variable {expand : α → Except ε (List β × List α)} {next : α → List α} {items : α → List β}
  {nodes : List α}

/-- Over a closed set of nodes every walk succeeds, and more fuel gives the same
walk. -/
theorem exists_visitAll_succ (hexpand : ∀ a ∈ nodes, expand a = .ok (items a, next a))
    (hclosed : ∀ a ∈ nodes, next a ⊆ nodes) (fuel : Nat) (starts : List α)
    (hstarts : starts ⊆ nodes) (seen : Seen α β) (hfuel : unvisited nodes seen < fuel) :
    ∃ after, visitAll expand fuel starts seen = .ok after ∧
      visitAll expand (fuel + 1) starts seen = .ok after ∧
      Walked next items starts seen after := by
  induction fuel generalizing starts seen with
  | zero => omega
  | succ fuel ih =>
    have hnode : ∀ a ∈ nodes, ∀ seen : Seen α β, unvisited nodes seen < fuel + 1 →
        ∃ after, visit expand (fuel + 1) a seen = .ok after ∧
          visit expand (fuel + 1 + 1) a seen = .ok after ∧
          Walked next items [a] seen after := by
      intro a ha seen hfuel
      by_cases hvisited : a ∈ seen.visited
      · exact ⟨seen, by rw [visit, if_pos hvisited], by rw [visit, if_pos hvisited],
          .visited hvisited⟩
      · have hless := unvisited_expand (seen.items ++ items a) ha hvisited
        obtain ⟨after, hrun, hrun', hwalked⟩ := ih (next a) (hclosed a ha)
          ⟨a :: seen.visited, seen.items ++ items a⟩ (by omega)
        refine ⟨after, ?_, ?_, hwalked.expand hvisited⟩
        · rw [visit, if_neg hvisited, hexpand a ha]
          exact hrun
        · rw [visit, if_neg hvisited, hexpand a ha]
          exact hrun'
    induction starts generalizing seen with
    | nil => exact ⟨seen, rfl, rfl, .nil⟩
    | cons a rest ihrest =>
      obtain ⟨ha, hrest⟩ := cons_subset.mp hstarts
      obtain ⟨middle, hrun, hrun', hwalked⟩ := hnode a ha seen hfuel
      have hmiddle := unvisited_mono nodes hwalked.grows
      obtain ⟨after, hafter, hafter', hwalked'⟩ := ihrest hrest middle (by omega)
      refine ⟨after, ?_, ?_, hwalked.cons hwalked'⟩
      · rw [visitAll, foldlM_cons, hrun]
        exact hafter
      · rw [visitAll, foldlM_cons, hrun']
        exact hafter'

/-- A walk that starts with nothing visited collects the items of the reachable
nodes, whatever its fuel above the number of nodes. -/
theorem exists_visitAll (hexpand : ∀ a ∈ nodes, expand a = .ok (items a, next a))
    (hclosed : ∀ a ∈ nodes, next a ⊆ nodes) {starts : List α} (hstarts : starts ⊆ nodes)
    (initial : List β) :
    ∃ after, (∀ fuel, nodes.length < fuel →
        visitAll expand fuel starts ⟨[], initial⟩ = .ok after) ∧
      ∀ b, b ∈ after.items ↔ b ∈ initial ∨ ∃ s ∈ starts, ∃ a, Reaches next s a ∧ b ∈ items a := by
  have hunvisited : unvisited nodes (⟨[], initial⟩ : Seen α β) ≤ nodes.length :=
    length_filter_le _ _
  obtain ⟨after, hrun, -, hwalked⟩ := exists_visitAll_succ hexpand hclosed (nodes.length + 1)
    starts hstarts ⟨[], initial⟩ (by omega)
  refine ⟨after, ?_, ?_⟩
  · intro fuel hfuel
    obtain ⟨more, rfl⟩ := Nat.exists_eq_add_of_lt hfuel
    clear hfuel
    induction more with
    | zero => exact hrun
    | succ more ih =>
      obtain ⟨after', hrun', hrun'', -⟩ := exists_visitAll_succ hexpand hclosed
        (nodes.length + more + 1) starts hstarts ⟨[], initial⟩ (by omega)
      rw [← Nat.add_assoc, hrun'', ← hrun', ih]
  · -- the visited set is closed, so it has everything reachable
    have hreached : ∀ s ∈ starts, ∀ a, Reaches next s a → a ∈ after.visited := by
      intro s hs a hreach
      induction hreach with
      | refl => exact hwalked.begun hs
      | tail _ hstep ih =>
        rcases hwalked.closed _ ih with hnil | hnext
        · simp at hnil
        · exact hnext hstep
    intro b
    rw [hwalked.collected]
    constructor
    · rintro (hb | ⟨a, ha, -, hb⟩)
      · exact Or.inl hb
      · rcases hwalked.reached a ha with hnil | ⟨s, hs, hreach⟩
        · simp at hnil
        · exact Or.inr ⟨s, hs, a, hreach, hb⟩
    · rintro (hb | ⟨s, hs, a, hreach, hb⟩)
      · exact Or.inl hb
      · exact Or.inr ⟨a, hreached s hs a hreach, by simp, hb⟩

end Run

end Walk

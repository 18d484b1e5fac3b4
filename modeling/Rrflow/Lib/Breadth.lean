import Mathlib

/-!
Breadth-first search with a queue.

A search takes a place from its queue, follows the edges of its node in their order
and puts the nodes that it has not met before at the end of the queue, up to a
depth. A round that takes a place pays for itself: each new place costs an unvisited
node, so that in a finite graph the queue runs empty (`queue_rounds_eq_nil`).

When its queue is empty it has found every node within the depth once, at its distance
from the start (`Sound.complete`).
-/

namespace Breadth

open List

variable {α ε : Type*}

/-- The nodes within `d` steps of the start. -/
def ball (step : α → α → Prop) (start : α) : ℕ → Set α
  | 0 => {start}
  | d + 1 => ball step start d ∪ {n | ∃ m ∈ ball step start d, step m n}

/-- The least number of steps to a node. -/
def AtDistance (step : α → α → Prop) (start : α) (d : ℕ) (n : α) : Prop :=
  n ∈ ball step start d ∧ ∀ e < d, n ∉ ball step start e

variable {step : α → α → Prop} {start : α}

theorem ball_succ_of_step {d : ℕ} {m n : α} (hm : m ∈ ball step start d) (h : step m n) :
    n ∈ ball step start (d + 1) :=
  .inr ⟨m, hm, h⟩

theorem ball_mono {d e : ℕ} (h : d ≤ e) : ball step start d ⊆ ball step start e := by
  induction h with
  | refl => exact subset_rfl
  | step _ ih => exact ih.trans Set.subset_union_left

theorem AtDistance.le {d e : ℕ} {n : α} (h : AtDistance step start d n)
    (hn : n ∈ ball step start e) : d ≤ e := by
  by_contra hlt
  exact h.2 e (not_le.mp hlt) hn

/-! ### The search -/

/-- A node with its depth and the path to it. -/
structure Place (α : Type*) where
  node : α
  depth : ℕ
  path : List α
  deriving DecidableEq

/-- An edge that led to a new node. -/
structure Hop (α ε : Type*) where
  near : Place α
  edge : ε
  far : Place α

structure Search (α ε : Type*) where
  visited : List α
  queue : List (Place α)
  found : List (Hop α ε)

def Place.init (start : α) : Place α := ⟨start, 0, [start]⟩

def Search.init (start : α) : Search α ε :=
  { visited := [start], queue := [.init start], found := [] }

def Place.next (place : Place α) (node : α) : Place α :=
  ⟨node, place.depth + 1, place.path ++ [node]⟩

variable [DecidableEq α]

/-- One edge of the node that was taken from the queue. -/
def follow (place : Place α) (search : Search α ε) (edge : ε × α) : Search α ε :=
  if edge.2 ∈ search.visited then search
  else
    { visited := edge.2 :: search.visited, queue := search.queue ++ [place.next edge.2]
      found := search.found ++ [⟨place, edge.1, place.next edge.2⟩] }

/-- One place of the queue; at the greatest depth its edges are not followed. -/
def round (edges : α → List (ε × α)) (maxDepth : ℕ) (search : Search α ε) : Search α ε :=
  match search.queue with
  | [] => search
  | place :: rest =>
    if maxDepth ≤ place.depth then { search with queue := rest }
    else (edges place.node).foldl (follow place) { search with queue := rest }

/-- What following some edges adds to a search. -/
structure Follows (place : Place α) (l : List (ε × α)) (search search' : Search α ε)
    (hops : List (Hop α ε)) : Prop where
  visited : ∀ n, n ∈ search'.visited ↔ n ∈ search.visited ∨ ∃ hop ∈ hops, hop.far.node = n
  covers : ∀ edge ∈ l, edge.2 ∈ search'.visited
  queue : search'.queue = search.queue ++ hops.map (·.far)
  found : search'.found = search.found ++ hops
  hop : ∀ hop ∈ hops, hop.near = place ∧ hop.far = place.next hop.far.node ∧
    (hop.edge, hop.far.node) ∈ l ∧ hop.far.node ∉ search.visited
  nodup : (hops.map (·.far.node)).Nodup

theorem exists_follows (place : Place α) (l : List (ε × α)) (search : Search α ε) :
    ∃ hops, Follows place l search (l.foldl (follow place) search) hops := by
  induction l generalizing search with
  | nil => exact ⟨[], by simp, by simp, by simp, by simp, by simp, by simp⟩
  | cons edge rest ih =>
    rw [foldl_cons, follow]
    split
    · next hold =>
        obtain ⟨hops, h⟩ := ih search
        refine ⟨hops, h.visited, ?_, h.queue, h.found, fun hop hmem => ?_, h.nodup⟩
        · exact forall_mem_cons.mpr ⟨(h.visited _).mpr (.inl hold), h.covers⟩
        · obtain ⟨hnear, hfar, hedge, hnew⟩ := h.hop hop hmem
          exact ⟨hnear, hfar, mem_cons_of_mem _ hedge, hnew⟩
    · next hnew =>
        obtain ⟨hops, h⟩ := ih { visited := edge.2 :: search.visited
                                 queue := search.queue ++ [place.next edge.2]
                                 found := search.found ++ [⟨place, edge.1, place.next edge.2⟩] }
        refine ⟨⟨place, edge.1, place.next edge.2⟩ :: hops, fun n => ?_, ?_, ?_, ?_, ?_, ?_⟩
        · rw [h.visited]
          simp only [mem_cons, exists_eq_or_imp, Place.next]
          rw [eq_comm, or_assoc, or_left_comm]
        · exact forall_mem_cons.mpr
            ⟨(h.visited _).mpr (.inl (mem_cons_self ..)), h.covers⟩
        · rw [h.queue, append_assoc]
          rfl
        · rw [h.found, append_assoc]
          rfl
        · intro hop hmem
          rcases mem_cons.mp hmem with rfl | hmem
          · exact ⟨rfl, rfl, by simp [Place.next], hnew⟩
          · obtain ⟨hnear, hfar, hedge, hunseen⟩ := h.hop hop hmem
            exact ⟨hnear, hfar, mem_cons_of_mem _ hedge,
              fun hold => hunseen (mem_cons_of_mem _ hold)⟩
        · refine nodup_cons.mpr ⟨fun hmem => ?_, h.nodup⟩
          obtain ⟨hop, hhop, heq⟩ := mem_map.mp hmem
          refine (h.hop hop hhop).2.2.2 ?_
          rw [heq]
          exact mem_cons_self ..

/-- What a search can still do: the places of the queue and the unvisited nodes. -/
def potential (nodes : Finset α) (search : Search α ε) : ℕ :=
  search.queue.length + (nodes.filter (· ∉ search.visited)).card

theorem potential_init_le (nodes : Finset α) (start : α) :
    potential nodes (.init start : Search α ε) ≤ nodes.card + 1 := by
  have hfilter : (nodes.filter (· ∉ (.init start : Search α ε).visited)).card ≤ nodes.card :=
    Finset.card_filter_le _ _
  simp only [potential, Search.init, length_singleton] at hfilter ⊢
  omega

variable {nodes : Finset α}

theorem potential_follow_le (place : Place α) (search : Search α ε) {edge : ε × α}
    (h : edge.2 ∈ nodes) : potential nodes (follow place search edge) ≤ potential nodes search := by
  unfold follow
  split
  · exact le_rfl
  · next hnew =>
      have hlt : (nodes.filter (· ∉ edge.2 :: search.visited)).card <
          (nodes.filter (· ∉ search.visited)).card := by
        refine Finset.card_lt_card (Finset.ssubset_iff_of_subset ?_ |>.mpr ⟨edge.2, ?_, ?_⟩)
        · intro n
          simp only [Finset.mem_filter, mem_cons, not_or]
          exact fun ⟨hn, _, hold⟩ => ⟨hn, hold⟩
        · exact Finset.mem_filter.mpr ⟨h, hnew⟩
        · simp
      simp only [potential, length_append, length_singleton]
      omega

theorem potential_foldl_follow_le (place : Place α) {l : List (ε × α)}
    (h : ∀ edge ∈ l, edge.2 ∈ nodes) (search : Search α ε) :
    potential nodes (l.foldl (follow place) search) ≤ potential nodes search := by
  induction l generalizing search with
  | nil => exact le_rfl
  | cons edge rest ih =>
    have hfirst := potential_follow_le place search (h edge (by simp))
    exact (ih (fun e he => h e (mem_cons_of_mem _ he)) _).trans hfirst

variable {edges : α → List (ε × α)} {maxDepth : ℕ} {search : Search α ε}

theorem round_of_queue_eq_nil (h : search.queue = []) : round edges maxDepth search = search := by
  rw [round, h]

theorem rounds_of_queue_eq_nil (h : search.queue = []) (n : ℕ) :
    (round edges maxDepth)^[n] search = search :=
  Function.iterate_fixed (round_of_queue_eq_nil h) n

theorem potential_round_lt (h : ∀ n, ∀ edge ∈ edges n, edge.2 ∈ nodes) (hqueue : search.queue ≠ [])
    (maxDepth : ℕ) : potential nodes (round edges maxDepth search) < potential nodes search := by
  obtain ⟨place, rest, hplace⟩ := exists_cons_of_ne_nil hqueue
  have hpop : potential nodes { search with queue := rest } < potential nodes search := by
    simp only [potential, hplace, length_cons]
    omega
  rw [round, hplace]
  dsimp only
  split
  · exact hpop
  · exact (potential_foldl_follow_le place (h place.node) _).trans_lt hpop

theorem queue_rounds_eq_nil (h : ∀ n, ∀ edge ∈ edges n, edge.2 ∈ nodes) {n : ℕ}
    (hn : potential nodes search ≤ n) : ((round edges maxDepth)^[n] search).queue = [] := by
  induction n generalizing search with
  | zero =>
    have hzero : search.queue.length = 0 := by
      unfold potential at hn
      omega
    exact eq_nil_of_length_eq_zero hzero
  | succ n ih =>
    by_cases hqueue : search.queue = []
    · rw [rounds_of_queue_eq_nil hqueue]
      exact hqueue
    · have := potential_round_lt h hqueue maxDepth
      exact ih (by omega)

/-! ### What a search finds -/

/-- The steps of a graph that is given by its edges. -/
def Step (edges : α → List (ε × α)) (m n : α) : Prop := ∃ edge ∈ edges m, edge.2 = n

/-- The start, or the far place of a hop. -/
def Known (start : α) (found : List (Hop α ε)) (place : Place α) : Prop :=
  place = .init start ∨ ∃ hop ∈ found, hop.far = place

/-- A path with one node more than its depth, from the start along edges to its
node. -/
structure Place.Leads (edges : α → List (ε × α)) (start : α) (place : Place α) : Prop where
  head : place.path.head? = some start
  last : place.path.getLast? = some place.node
  length : place.path.length = place.depth + 1
  chain : place.path.IsChain (Step edges)

/-- What a search knows between its rounds. -/
structure Sound (edges : α → List (ε × α)) (start : α) (maxDepth : ℕ) (search : Search α ε) :
    Prop where
  visited : ∀ n, n ∈ search.visited ↔ ∃ place, Known start search.found place ∧ place.node = n
  queued : ∀ place ∈ search.queue, Known start search.found place
  exact : ∀ place, Known start search.found place →
    AtDistance (Step edges) start place.depth place.node ∧ place.depth ≤ maxDepth ∧
      place.Leads edges start
  /-- A place that is no longer queued has no unvisited neighbour. -/
  closed : ∀ place, Known start search.found place → place ∈ search.queue ∨
    maxDepth ≤ place.depth ∨ ∀ n, Step edges place.node n → n ∈ search.visited
  ordered : search.queue.Pairwise fun a b => a.depth ≤ b.depth
  near : ∀ place ∈ search.queue.head?, ∀ known, Known start search.found known →
    known.depth ≤ place.depth + 1
  hop : ∀ hop ∈ search.found, Known start search.found hop.near ∧
    (hop.edge, hop.far.node) ∈ edges hop.near.node ∧ hop.far = hop.near.next hop.far.node
  sorted : search.found.Pairwise fun a b => a.far.depth ≤ b.far.depth
  nodup : (start :: search.found.map (·.far.node)).Nodup

omit [DecidableEq α] in
theorem Place.Leads.init (edges : α → List (ε × α)) (start : α) :
    (Place.init start).Leads edges start :=
  ⟨rfl, rfl, rfl, List.IsChain.singleton _⟩

omit [DecidableEq α] in
theorem Place.Leads.next {place : Place α} (h : place.Leads edges start) {n : α}
    (hstep : Step edges place.node n) : (place.next n).Leads edges start where
  head := by
    have := h.head
    cases hpath : place.path with
    | nil => simp [hpath] at this
    | cons a rest => simpa [Place.next, hpath] using this
  last := by simp [Place.next]
  length := by simp [Place.next, h.length]
  chain := by
    refine isChain_append.mpr ⟨h.chain, List.IsChain.singleton _, ?_⟩
    intro a ha b hb
    rw [h.last] at ha
    obtain rfl := Option.some.inj ha
    obtain rfl := Option.some.inj hb
    exact hstep

omit [DecidableEq α] in
theorem Sound.init (edges : α → List (ε × α)) (start : α) (maxDepth : ℕ) :
    Sound edges start maxDepth (.init start) where
  visited n := by simp [Search.init, Known, Place.init, eq_comm]
  queued place hmem := by
    rw [mem_singleton.mp hmem]
    exact .inl rfl
  exact place h := by
    rcases h with rfl | ⟨_, hmem, -⟩
    · exact ⟨⟨rfl, fun _ he => absurd he (Nat.not_lt_zero _)⟩, Nat.zero_le _, .init edges start⟩
    · simp [Search.init] at hmem
  closed place h := by
    rcases h with rfl | ⟨_, hmem, -⟩
    · exact .inl (mem_singleton.mpr rfl)
    · simp [Search.init] at hmem
  ordered := pairwise_singleton _ _
  near place hplace known h := by
    rcases h with rfl | ⟨_, hmem, -⟩
    · exact Nat.zero_le _
    · simp [Search.init] at hmem
  hop hop hmem := by simp [Search.init] at hmem
  sorted := List.Pairwise.nil
  nodup := by simp [Search.init]

namespace Sound

variable {search : Search α ε}

/-- As far as the queue has come, every node has been visited. -/
theorem ball_subset (h : Sound edges start maxDepth search) {d : ℕ} (hmax : d ≤ maxDepth)
    (hd : ∀ place ∈ search.queue, d ≤ place.depth) :
    ball (Step edges) start d ⊆ {n | n ∈ search.visited} := by
  induction d with
  | zero =>
    rintro n rfl
    exact (h.visited n).mpr ⟨.init n, .inl rfl, rfl⟩
  | succ d ih =>
    have hball := ih (by omega) fun place hmem => by have := hd place hmem; omega
    rintro n (hn | ⟨m, hm, hstep⟩)
    · exact hball hn
    · obtain ⟨place, hknown, rfl⟩ := (h.visited m).mp (hball hm)
      have hdepth := (h.exact place hknown).1.le hm
      rcases h.closed place hknown with hqueue | hdeep | hclosed
      · have := hd place hqueue
        omega
      · omega
      · exact hclosed n hstep

omit [DecidableEq α] in
theorem known_of_append {found hops : List (Hop α ε)} {place : Place α} :
    Known start (found ++ hops) place ↔ Known start found place ∨ ∃ hop ∈ hops, hop.far = place := by
  simp only [Known, mem_append, or_and_right, exists_or, or_assoc]

section Extend

variable {search' : Search α ε} {place : Place α} {rest : List (Place α)} {l : List (ε × α)}
  {hops : List (Hop α ε)} (h : Sound edges start maxDepth search)
  (hqueue : search.queue = place :: rest)

include h hqueue

omit [DecidableEq α] in
theorem head_le {other : Place α} (hmem : other ∈ search.queue) : place.depth ≤ other.depth := by
  have hordered := h.ordered
  rw [hqueue] at hordered hmem
  rcases mem_cons.mp hmem with rfl | hmem
  · exact le_rfl
  · exact rel_of_pairwise_cons hordered hmem

variable (hf : Follows place l { search with queue := rest } search' hops)
  (hl : ∀ edge ∈ l, edge ∈ edges place.node ∧ place.depth < maxDepth)

include hf hl

/-- The new nodes are one step further than the place and nearer to nothing visited. -/
theorem hop_exact {hop : Hop α ε} (hmem : hop ∈ hops) :
    hop.far.depth = place.depth + 1 ∧ AtDistance (Step edges) start hop.far.depth hop.far.node ∧
      hop.far.depth ≤ maxDepth ∧ hop.far.Leads edges start := by
  obtain ⟨-, hfar, hin, hunseen⟩ := hf.hop hop hmem
  obtain ⟨hedge, hshallow⟩ := hl _ hin
  obtain ⟨hdist, -, hleads⟩ := h.exact place (h.queued place (by simp [hqueue]))
  have hball := h.ball_subset hshallow.le fun _ => h.head_le hqueue
  have hstep : Step edges place.node hop.far.node := ⟨_, hedge, rfl⟩
  have hdepth : hop.far.depth = place.depth + 1 := by rw [hfar]; rfl
  refine ⟨hdepth, ⟨?_, ?_⟩, by omega, ?_⟩
  · rw [hdepth]
    exact ball_succ_of_step hdist.1 hstep
  · intro e he hmem
    exact hunseen (hball (ball_mono (by omega) hmem))
  · rw [hfar]
    exact hleads.next hstep

/-- The place leaves the queue, and the nodes behind some of its edges enter it. -/
theorem extend (hclosed : maxDepth ≤ place.depth ∨
    ∀ n, Step edges place.node n → n ∈ search'.visited) :
    Sound edges start maxDepth search' := by
  have hnew := fun hop (hhop : hop ∈ hops) => h.hop_exact hqueue hf hl hhop
  have hnear : ∀ known, Known start search.found known → known.depth ≤ place.depth + 1 :=
    h.near place (by simp [hqueue])
  have hold : ∀ {other}, other ∈ rest → other ∈ search.queue := by simp +contextual [hqueue]
  have hknown (other : Place α) : Known start search'.found other ↔
      Known start search.found other ∨ ∃ hop ∈ hops, hop.far = other := by
    rw [hf.found, known_of_append]
  refine ⟨fun n => ?_, ?_, ?_, ?_, ?_, ?_, ?_, ?_, ?_⟩
  · rw [hf.visited, h.visited]
    simp only [hknown, or_and_right, exists_or]
    refine or_congr_right ⟨?_, ?_⟩
    · rintro ⟨hop, hmem, rfl⟩
      exact ⟨_, ⟨hop, hmem, rfl⟩, rfl⟩
    · rintro ⟨_, ⟨hop, hmem, rfl⟩, rfl⟩
      exact ⟨hop, hmem, rfl⟩
  · intro other hmem
    rw [hf.queue, mem_append, mem_map] at hmem
    exact (hknown other).mpr (hmem.imp_left fun hmem => h.queued other (hold hmem))
  · intro other hother
    rcases (hknown other).mp hother with hother | ⟨hop, hhop, rfl⟩
    · exact h.exact other hother
    · exact (hnew hop hhop).2
  · intro other hother
    rw [hf.queue, mem_append]
    rcases (hknown other).mp hother with hother | ⟨hop, hhop, rfl⟩
    · rcases h.closed other hother with hmem | hdeep | hvisited
      · rw [hqueue] at hmem
        rcases mem_cons.mp hmem with rfl | hmem
        · exact .inr hclosed
        · exact .inl (.inl hmem)
      · exact .inr (.inl hdeep)
      · exact .inr (.inr fun n hn => (hf.visited n).mpr (.inl (hvisited n hn)))
    · exact .inl (.inr (mem_map_of_mem hhop))
  · rw [hf.queue]
    refine pairwise_append.mpr ⟨(pairwise_cons.mp (hqueue ▸ h.ordered)).2, ?_, ?_⟩
    · refine pairwise_map.mpr (pairwise_of_forall_mem_list ?_)
      intro a ha b hb
      rw [(hnew a ha).1, (hnew b hb).1]
    · intro a ha b hb
      obtain ⟨hop, hhop, rfl⟩ := mem_map.mp hb
      rw [(hnew hop hhop).1]
      exact hnear a (h.queued a (hold ha))
  · intro other hother known hmem
    have hdepth : known.depth ≤ place.depth + 1 := by
      rcases (hknown known).mp hmem with hmem | ⟨hop, hhop, rfl⟩
      · exact hnear known hmem
      · exact (hnew hop hhop).1.le
    refine hdepth.trans (Nat.succ_le_succ ?_)
    have hin := mem_of_mem_head? hother
    rw [hf.queue, mem_append] at hin
    rcases hin with hin | hin
    · exact h.head_le hqueue (hold hin)
    · obtain ⟨hop, hhop, rfl⟩ := mem_map.mp hin
      exact Nat.le_of_succ_le (hnew hop hhop).1.ge
  · intro hop hmem
    rw [hf.found, mem_append] at hmem
    rw [hknown]
    rcases hmem with hmem | hmem
    · obtain ⟨hnear', hedge, hfar⟩ := h.hop hop hmem
      exact ⟨.inl hnear', hedge, hfar⟩
    · obtain ⟨rfl, hfar, hedge, -⟩ := hf.hop hop hmem
      exact ⟨.inl (h.queued _ (by simp [hqueue])), (hl _ hedge).1, hfar⟩
  · rw [hf.found]
    refine pairwise_append.mpr ⟨h.sorted, ?_, ?_⟩
    · refine pairwise_of_forall_mem_list ?_
      intro a ha b hb
      rw [(hnew a ha).1, (hnew b hb).1]
    · intro a ha b hb
      rw [(hnew b hb).1]
      exact hnear a.far (.inr ⟨a, ha, rfl⟩)
  · rw [hf.found, map_append, ← cons_append]
    refine nodup_append.mpr ⟨h.nodup, hf.nodup, ?_⟩
    rintro a ha _ hb rfl
    obtain ⟨hop, hhop, rfl⟩ := mem_map.mp hb
    refine (hf.hop hop hhop).2.2.2 ((h.visited _).mpr ?_)
    rcases mem_cons.mp ha with hstart | hmem
    · exact ⟨.init start, .inl rfl, hstart.symm⟩
    · obtain ⟨other, hmem, heq⟩ := mem_map.mp hmem
      exact ⟨other.far, .inr ⟨other, hmem, rfl⟩, heq⟩

end Extend

theorem round (h : Sound edges start maxDepth search) :
    Sound edges start maxDepth (Breadth.round edges maxDepth search) := by
  cases hqueue : search.queue with
  | nil => rwa [round_of_queue_eq_nil hqueue]
  | cons place rest =>
    rw [Breadth.round, hqueue]
    dsimp only
    split
    · next hdeep =>
        obtain ⟨hops, hf⟩ := exists_follows place ([] : List (ε × α)) { search with queue := rest }
        exact h.extend hqueue hf (by simp) (.inl hdeep)
    · next hshallow =>
        obtain ⟨hops, hf⟩ := exists_follows place (edges place.node) { search with queue := rest }
        refine h.extend hqueue hf (fun _ hedge => ⟨hedge, not_le.mp hshallow⟩) (.inr ?_)
        rintro n ⟨edge, hedge, rfl⟩
        exact hf.covers edge hedge

theorem rounds (h : Sound edges start maxDepth search) (k : ℕ) :
    Sound edges start maxDepth ((Breadth.round edges maxDepth)^[k] search) := by
  induction k generalizing search with
  | zero => exact h
  | succ k ih => exact ih h.round

/-- With an empty queue every node within the depth has been found. -/
theorem complete (h : Sound edges start maxDepth search) (hqueue : search.queue = []) {d : ℕ}
    {n : α} (hn : AtDistance (Step edges) start d n) (hpos : 1 ≤ d) (hmax : d ≤ maxDepth) :
    ∃ hop ∈ search.found, hop.far.node = n ∧ hop.far.depth = d := by
  have hball := h.ball_subset hmax (by simp [hqueue])
  obtain ⟨place, hknown, rfl⟩ := (h.visited n).mp (hball hn.1)
  have hdist := (h.exact place hknown).1
  have hdepth : place.depth = d := le_antisymm (hdist.le hn.1) (hn.le hdist.1)
  rcases hknown with rfl | ⟨hop, hmem, rfl⟩
  · rw [← hdepth] at hpos
    exact absurd hpos (Nat.not_lt_zero 0)
  · exact ⟨hop, hmem, rfl, hdepth⟩

end Sound

end Breadth

import Rrflow.Lsm.Publication

/-!
What a merge keeps.

The merge visits the keys of its inputs in order. For one key it collects the
versions of all inputs and either keeps them all, or keeps the newest one at or
before each protected sequence; a key of which only tombstones would be left is
dropped when no other segment covers it. `Kept` states what this promises for
one key, `wp_mergeLoop` carries it through the loop and the partitions it
writes.
-/

namespace Rrflow.Lsm

open Eff Latest List SortedMap VersionedValue

variable {codec : Codec}

variable {world : World} {state : MergeState} {plan : MergePlan}

/-! ### The versions of one key -/

section Retention

variable {versions : SortedMap Nat (Option Bytes)}

theorem mem_chainOfMap {v : VersionedValue} :
    v ∈ chainOfMap versions ↔ versions.find? v.sequence = some v.value := by
  rw [chainOfMap, mem_map, ← mem_toList_iff]
  constructor
  · rintro ⟨entry, hentry, rfl⟩
    exact hentry
  · intro h
    exact ⟨_, h, rfl⟩

theorem chainOfMap_increasing (versions : SortedMap Nat (Option Bytes)) :
    (chainOfMap versions).Pairwise (fun a b => a.sequence < b.sequence) :=
  pairwise_map.mpr versions.sorted

theorem map_sequence_chainOfMap : (chainOfMap versions).map sequence = versions.keys := by
  rw [chainOfMap, map_map]
  rfl

theorem retainedVersions_sublist (versions : SortedMap Nat (Option Bytes)) (protectedSequences : List Nat)
    (retainAll : Bool) :
    (retainedVersions versions protectedSequences retainAll).Sublist (chainOfMap versions) := by
  unfold retainedVersions
  split
  · exact List.Sublist.refl _
  · exact filter_sublist

theorem le_of_getLast? {l : List Nat} (h : l.Pairwise (· < ·)) {x y : Nat}
    (hx : l.getLast? = some x) (hy : y ∈ l) : y ≤ x := by
  obtain ⟨init, rfl⟩ := getLast?_eq_some_iff.mp hx
  rcases mem_append.mp hy with hy | hy
  · exact ((pairwise_append.mp h).2.2 y hy x (by simp)).le
  · exact (mem_singleton.mp hy).le

theorem mem_retainedVersions {protectedSequences : List Nat} {s : Nat}
    (hs : s ∈ protectedSequences) {v : VersionedValue}
    (hv : IsLatest sequence s (chainOfMap versions) (some v)) :
    v ∈ retainedVersions versions protectedSequences false := by
  obtain ⟨hmem, hle, hmax⟩ := hv
  simp only [retainedVersions, Bool.false_eq_true, if_false, mem_filter,
    decide_eq_true_eq, mem_filterMap]
  refine ⟨hmem, s, hs, ?_⟩
  have hin : v.sequence ∈ versions.keys.filter (· ≤ s) := by
    rw [mem_filter, ← map_sequence_chainOfMap]
    exact ⟨mem_map_of_mem hmem, by simpa using hle⟩
  cases hlast : (versions.keys.filter (· ≤ s)).getLast? with
  | none => rw [getLast?_eq_none_iff.mp hlast] at hin; simp at hin
  | some x =>
    have hge := le_of_getLast? (versions.keys_pairwise.filter _) hlast hin
    have hx := mem_of_getLast? hlast
    rw [mem_filter, ← map_sequence_chainOfMap, mem_map] at hx
    obtain ⟨⟨w, hw, rfl⟩, hws⟩ := hx
    have := hmax w hw (by simpa using hws)
    rw [le_antisymm this hge]

theorem retainedVersions_latest {protectedSequences : List Nat} {s : Nat}
    (hs : s ∈ protectedSequences) :
    latest sequence s (retainedVersions versions protectedSequences false) =
      latest sequence s (chainOfMap versions) := by
  have hsub := retainedVersions_sublist versions protectedSequences false
  have hnd : ((retainedVersions versions protectedSequences false).map sequence).Nodup :=
    (pairwise_map.mpr ((chainOfMap_increasing versions).sublist hsub)).imp fun h => h.ne
  have hall := isLatest_latest sequence s (chainOfMap versions)
  refine (IsLatest.eq_latest hnd ?_).symm
  cases hlatest : latest sequence s (chainOfMap versions) with
  | none => rw [hlatest] at hall; exact hall.none_of_subset hsub.subset
  | some v =>
    rw [hlatest] at hall
    exact hall.of_subset hsub.subset (mem_retainedVersions hs hall)

end Retention

/-- What a merge may write for a key with the versions `before`. -/
structure Kept (plan : MergePlan) (key : Bytes) (before after : List VersionedValue) : Prop where
  increasing : after.Pairwise (fun a b => a.sequence < b.sequence)
  subset : after ⊆ before
  all : plan.retainAllVersions = true → before ⊆ after
  seen : plan.retainAllVersions = false → ∀ s ∈ plan.protectedSequences,
    latest sequence s after = latest sequence s before ∨
      after = [] ∧ plan.shadows key = false ∧
        ∃ v, latest sequence s before = some v ∧ v.value = none

/-- The retained versions of a key, or nothing when the key is dropped. -/
def emitted (plan : MergePlan) (key : Bytes) (versions : SortedMap Nat (Option Bytes)) :
    List VersionedValue :=
  let retained := retainedVersions versions plan.protectedSequences plan.retainAllVersions
  if retainCompactedKey retained plan.retainAllVersions (plan.shadows key) then retained else []

theorem kept_emitted (plan : MergePlan) (key : Bytes) {versions : SortedMap Nat (Option Bytes)}
    {before : List VersionedValue} (hbefore : ∀ v, v ∈ before ↔ v ∈ chainOfMap versions) :
    Kept plan key before (emitted plan key versions) := by
  have hsub := retainedVersions_sublist versions plan.protectedSequences plan.retainAllVersions
  have hemit : (emitted plan key versions).Sublist (chainOfMap versions) := by
    unfold emitted
    dsimp only
    split
    · exact hsub
    · exact nil_sublist _
  refine ⟨(chainOfMap_increasing versions).sublist hemit, ?_, ?_, ?_⟩
  · exact fun v hv => (hbefore v).mpr (hemit.subset hv)
  · intro hall v hv
    have hmem := (hbefore v).mp hv
    have hne : chainOfMap versions ≠ [] := ne_nil_of_mem hmem
    simp only [emitted, retainedVersions, hall, if_true, retainCompactedKey, Bool.true_or,
      Bool.and_true, Bool.not_eq_true', isEmpty_eq_false_iff]
    rw [if_pos hne]
    exact hmem
  · intro hprune s hs
    have hnd : ((chainOfMap versions).map sequence).Nodup :=
      (pairwise_map.mpr (chainOfMap_increasing versions)).imp fun h => h.ne
    rw [IsLatest.eq_latest hnd ((isLatest_latest _ s before).congr hbefore),
      ← retainedVersions_latest hs]
    simp only [emitted, hprune]
    split
    · exact Or.inl rfl
    · rename_i hdrop
      -- dropped: nothing was retained, or only tombstones that hide nothing
      cases hv : latest sequence s (retainedVersions versions plan.protectedSequences false) with
      | none => exact Or.inl rfl
      | some v =>
        have hmem : v ∈ retainedVersions versions plan.protectedSequences false := by
          have h := isLatest_latest sequence s
            (retainedVersions versions plan.protectedSequences false)
          rw [hv] at h
          exact h.1
        have hne : (retainedVersions versions plan.protectedSequences false).isEmpty = false :=
          isEmpty_eq_false_iff.mpr (ne_nil_of_mem hmem)
        simp only [retainCompactedKey, hne, Bool.not_false, Bool.true_and, Bool.false_or,
          Bool.or_eq_true, not_or, Bool.not_eq_true, any_eq_false,
          Option.isSome_iff_ne_none, ne_eq, not_not] at hdrop
        exact Or.inr ⟨rfl, hdrop.2, v, rfl, hdrop.1 v hmem⟩

/-! ### Cursors -/

theorem chainOf_flatten (key : Bytes) (cursors : List (List Entry)) :
    chainOf key cursors.flatten = cursors.flatMap (chainOf key) := by
  rw [← flatMap_id', chainOf_flatMap]

variable {key : Bytes}

theorem takeWhile_eq_chainOf {rows : List Entry} (h : rows.Pairwise RowLt)
    (hmin : ∀ row ∈ rows, key ≤ row.1) :
    (rows.takeWhile (fun record => record.1 = key)).map Prod.snd = chainOf key rows := by
  induction rows with
  | nil => rfl
  | cons row rest ih =>
    obtain ⟨hlt, hrest⟩ := pairwise_cons.mp h
    rw [takeWhile_cons, chainOf_cons]
    by_cases hkey : row.1 = key
    · rw [if_pos (by simpa using hkey), if_pos hkey, map_cons,
        ih hrest fun r hr => hmin r (mem_cons_of_mem _ hr)]
    · rw [if_neg (by simpa using hkey), if_neg hkey]
      -- every later row has a greater key
      have hlt' : key < row.1 := lt_of_le_of_ne (hmin row (by simp)) (Ne.symm hkey)
      exact (chainOf_eq_nil fun r hr => (hlt'.trans_le (hlt r hr).key_le).ne').symm

theorem chainOf_dropWhile {rows : List Entry} (h : rows.Pairwise RowLt)
    (hmin : ∀ row ∈ rows, key ≤ row.1) (k : Bytes) :
    chainOf k (rows.dropWhile (fun record => record.1 = key)) =
      if k = key then [] else chainOf k rows := by
  induction rows with
  | nil => simp [chainOf]
  | cons row rest ih =>
    obtain ⟨hlt, hrest⟩ := pairwise_cons.mp h
    rw [dropWhile_cons]
    by_cases hkey : row.1 = key
    · rw [if_pos (by simpa using hkey), ih hrest fun r hr => hmin r (mem_cons_of_mem _ hr),
        chainOf_cons]
      split
      · rfl
      · rename_i hne
        rw [if_neg (fun heq => hne (heq.symm.trans hkey))]
    · rw [if_neg (by simpa using hkey)]
      have hlt' : key < row.1 := lt_of_le_of_ne (hmin row (by simp)) (Ne.symm hkey)
      split
      · rename_i heq
        subst heq
        refine chainOf_eq_nil fun r hr => ?_
        rcases mem_cons.mp hr with rfl | hr
        · exact hkey
        · exact (hlt'.trans_le (hlt r hr).key_le).ne'
      · rfl

def Cursors (cursors : List (List Entry)) : Prop := ∀ cursor ∈ cursors, cursor.Pairwise RowLt

def advance (key : Bytes) (cursors : List (List Entry)) : List (List Entry) :=
  cursors.map (·.dropWhile (fun record => record.1 = key))

variable {cursors : List (List Entry)}

theorem mem_advance_flatten {row : Entry} (h : row ∈ (advance key cursors).flatten) :
    row ∈ cursors.flatten := by
  obtain ⟨cursor', hcursor', hrow⟩ := mem_flatten.mp h
  obtain ⟨cursor, hcursor, rfl⟩ := mem_map.mp hcursor'
  exact mem_flatten.mpr ⟨cursor, hcursor, (dropWhile_sublist _).subset hrow⟩

theorem Cursors.advance (h : Cursors cursors) (key : Bytes) : Cursors (advance key cursors) := by
  intro cursor' hcursor'
  obtain ⟨cursor, hcursor, rfl⟩ := mem_map.mp hcursor'
  exact (h cursor hcursor).sublist (dropWhile_sublist _)

theorem minKey_eq_none (h : minKey cursors = none) : cursors.flatten = [] := by
  rw [minKey, min?_eq_none_iff, filterMap_eq_nil_iff] at h
  rw [flatten_eq_nil_iff]
  intro cursor hcursor
  have := h cursor hcursor
  cases cursor with
  | nil => rfl
  | cons row rest => simp at this

theorem minKey_eq_some (hc : Cursors cursors) (h : minKey cursors = some key) :
    (∃ cursor ∈ cursors, ∃ row rest, cursor = row :: rest ∧ row.1 = key) ∧
      ∀ row ∈ cursors.flatten, key ≤ row.1 := by
  rw [minKey, min?_eq_some_iff] at h
  obtain ⟨hmem, hmin⟩ := h
  refine ⟨?_, ?_⟩
  · obtain ⟨cursor, hcursor, hhead⟩ := mem_filterMap.mp hmem
    cases cursor with
    | nil => simp at hhead
    | cons row rest => exact ⟨_, hcursor, row, rest, rfl, by simpa using hhead⟩
  · intro row hrow
    obtain ⟨cursor, hcursor, hrow⟩ := mem_flatten.mp hrow
    cases cursor with
    | nil => simp at hrow
    | cons first rest =>
      have hfirst : key ≤ first.1 :=
        hmin first.1 (mem_filterMap.mpr ⟨_, hcursor, rfl⟩)
      rcases mem_cons.mp hrow with rfl | hrow
      · exact hfirst
      · exact hfirst.trans ((pairwise_cons.mp (hc _ hcursor)).1 row hrow).key_le

section MinKey

variable {cursors : List (List Entry)} {key : Bytes}

theorem map_snd_records (hc : Cursors cursors) (hmin : ∀ row ∈ cursors.flatten, key ≤ row.1) :
    (cursors.flatMap (·.takeWhile (fun record => record.1 = key))).map Prod.snd =
      chainOf key cursors.flatten := by
  rw [chainOf_flatten, map_flatMap]
  refine flatMap_congr fun cursor hcursor => ?_
  exact takeWhile_eq_chainOf (hc cursor hcursor)
    fun row hrow => hmin row (mem_flatten.mpr ⟨cursor, hcursor, hrow⟩)

theorem chainOf_advance (hc : Cursors cursors) (hmin : ∀ row ∈ cursors.flatten, key ≤ row.1)
    (k : Bytes) :
    chainOf k (advance key cursors).flatten =
      if k = key then [] else chainOf k cursors.flatten := by
  have hone : ∀ cursor ∈ cursors, chainOf k (cursor.dropWhile (fun record => record.1 = key)) =
      if k = key then [] else chainOf k cursor := fun cursor hcursor =>
    chainOf_dropWhile (hc cursor hcursor)
      (fun row hrow => hmin row (mem_flatten.mpr ⟨cursor, hcursor, hrow⟩)) k
  rw [chainOf_flatten, advance, flatMap_map, flatMap_congr hone, chainOf_flatten]
  split
  · simp
  · rfl

theorem advance_shorter (h : ∃ cursor ∈ cursors, ∃ row rest, cursor = row :: rest ∧ row.1 = key) :
    (advance key cursors).flatten.length < cursors.flatten.length := by
  obtain ⟨cursor, hcursor, row, rest, rfl, hrow⟩ := h
  induction cursors with
  | nil => simp at hcursor
  | cons first others ih =>
    have hle : ∀ l : List (List Entry), (advance key l).flatten.length ≤ l.flatten.length := by
      intro l
      induction l with
      | nil => simp [advance]
      | cons c l ih =>
        rw [advance, map_cons, flatten_cons, flatten_cons, length_append, length_append]
        exact Nat.add_le_add (dropWhile_sublist _).length_le ih
    rw [advance, map_cons, flatten_cons, flatten_cons, length_append, length_append]
    rcases mem_cons.mp hcursor with rfl | hcursor
    · refine Nat.add_lt_add_of_lt_of_le ?_ (hle others)
      rw [dropWhile_cons, if_pos (by simpa using hrow)]
      exact Nat.lt_succ_of_le (dropWhile_sublist _).length_le
    · exact Nat.add_lt_add_of_le_of_lt (dropWhile_sublist _).length_le (ih hcursor)

end MinKey

/-- The collected map has exactly the versions of the records. -/
theorem wp_observeRecords (records : List Entry) :
    wp (Eff.foldlM observeRecord ∅ records)
      (fun versions world' => Silent world world' ∧
        ∀ v, v ∈ chainOfMap versions ↔ v ∈ records.map Prod.snd)
      (fun _ world' => Silent world world') world := by
  refine wp_foldlM (fun seen versions world' => Silent world world' ∧
      ∀ v, v ∈ chainOfMap versions ↔ v ∈ seen.map Prod.snd)
    ⟨Std.Refl.refl world, fun v => by simp [chainOfMap, EmptyCollection.emptyCollection]⟩ ?_
  rintro seen record rest versions world' - ⟨hs, hversions⟩
  refine silent_checkElapsed.seq (fun _ _ hs' => hs.trans hs') fun _ ticked hs' => ?_
  have hticked : Silent world ticked := hs.trans hs'
  cases hfind : versions.find? record.2.sequence with
  | some existing =>
    rw [wp_ite]
    split
    · exact hticked
    · rename_i hsame
      have hin : record.2 ∈ seen.map Prod.snd := by
        rw [← hversions, mem_chainOfMap, hfind, not_not.mp hsame]
      refine ⟨hticked, fun v => ?_⟩
      rw [hversions, map_append, mem_append, map_singleton, mem_singleton]
      constructor
      · exact Or.inl
      · rintro (hv | rfl)
        · exact hv
        · exact hin
  | none =>
    refine ⟨hticked, fun v => ?_⟩
    rw [mem_chainOfMap, find?_insert, map_append, mem_append,
      map_singleton, mem_singleton, ← hversions, mem_chainOfMap]
    split
    · rename_i hseq
      rw [hseq, hfind]
      simp only [Option.some.injEq, reduceCtorEq, false_or]
      constructor
      · intro hvalue
        obtain ⟨n, value⟩ := v
        obtain ⟨k, n', value'⟩ := record
        simp_all
      · rintro rfl
        rfl
    · rename_i hseq
      constructor
      · exact Or.inl
      · rintro (hv | rfl)
        · exact hv
        · exact absurd rfl hseq

/-! ### Partitions -/

def MergeState.chain (state : MergeState) (key : Bytes) : List VersionedValue :=
  (state.segments.map (fun segment => segment.content.chain key)).flatten ++
    (state.buffered.find? key).getD []

structure MergeState.Under (state : MergeState) (key : Bytes) : Prop where
  segments : ∀ segment ∈ state.segments, segment.content.lastKey < key
  buffered : ∀ k ∈ state.buffered.keys, k < key

/-- What is written is on disk. The segments are in the order of their keys, with the buffer
behind them. -/
structure MergeState.Sound (codec : Codec) (level : Nat) (state : MergeState) (disk : Disk) :
    Prop where
  present : ∀ segment ∈ state.segments,
    disk.segments.find? (codec.sha256 segment.content.rowGroups) = some segment.content
  level : ∀ segment ∈ state.segments, segment.level = level
  apart : state.segments.Pairwise fun a b => a.content.lastKey < b.content.firstKey
  behind : ∀ segment ∈ state.segments, ∀ key ∈ state.buffered.keys, segment.content.lastKey < key

/-- A state has nothing of the keys behind it. -/
theorem MergeState.Under.chain_eq (h : state.Under key) : state.chain key = [] := by
  rw [MergeState.chain, append_eq_nil_iff]
  constructor
  · rw [flatten_eq_nil_iff]
    intro chain hchain
    obtain ⟨segment, hsegment, rfl⟩ := mem_map.mp hchain
    refine chainOf_eq_nil fun row hrow heq => ?_
    have hle := segment.content.le_lastKey hrow
    rw [heq] at hle
    exact (h.segments segment hsegment).not_ge hle
  · have hnone : state.buffered.find? key = none := by
      rw [find?_eq_none_iff]
      exact fun hmem => lt_irrefl _ (h.buffered key hmem)
    rw [hnone]
    rfl

theorem mem_keys_of_chainRows {content : SegmentContent}
    {chains : SortedMap Bytes (List VersionedValue)} (hrows : content.rows = chainRows chains.toList)
    {row : Entry} (hrow : row ∈ content.rows) : row.1 ∈ chains.keys := by
  rw [hrows, mem_chainRows] at hrow
  obtain ⟨chain, hchain, hkey, -⟩ := hrow
  exact mem_map.mpr ⟨chain, hchain, hkey⟩

theorem wp_writeCompactionPartition {durable targetLevel : Nat}
    (h : state.Sound codec targetLevel world.disk) :
    wp (writeCompactionPartition codec durable targetLevel state)
      (fun state' world' => Grows codec world world' ∧ state'.Sound codec targetLevel world'.disk ∧
        state'.buffered = ∅ ∧ (∀ key, state'.chain key = state.chain key) ∧
        ∀ key, state.Under key → state'.Under key)
      (fun _ world' => Grows codec world world') world := by
  refine silent_checkElapsed.seq (fun _ _ hs => hs.grows) fun _ ticked hs => ?_
  rw [wp_bind, wp_get, wp_bind]
  refine wp_ofExcept ?_ fun _ _ => hs.grows
  intro _ _
  refine wp_ofExcept_bind (fun _ _ => hs.grows) fun _ _ => ?_
  refine wp_then wp_writeSegment ?_ fun _ _ hg => hs.grows.trans hg
  rintro content written ⟨hg, hfound, hrows⟩
  have hgrown : Grows codec world written := hs.grows.trans hg
  refine ⟨hgrown, ⟨?_, ?_, ?_, ?_⟩, rfl, ?_, ?_⟩
  · intro segment hsegment
    rcases mem_append.mp hsegment with hsegment | hsegment
    · exact hgrown.segments _ _ (h.present segment hsegment)
    · rw [mem_singleton.mp hsegment]
      exact hfound
  · intro segment hsegment
    rcases mem_append.mp hsegment with hsegment | hsegment
    · exact h.level segment hsegment
    · rw [mem_singleton.mp hsegment]
  · refine pairwise_append.mpr ⟨h.apart, pairwise_singleton _ _, ?_⟩
    intro segment hsegment new hnew
    obtain ⟨row, hrow, hfirst⟩ := content.exists_firstKey
    rw [mem_singleton.mp hnew, ← hfirst]
    exact h.behind segment hsegment _ (mem_keys_of_chainRows hrows hrow)
  · intro segment _ key hkey
    cases hkey
  · intro key
    show ((state.segments ++ [(⟨content, targetLevel⟩ : Segment)]).map
      (fun segment => segment.content.chain key)).flatten ++ [] = _
    rw [append_nil, map_append, flatten_append, map_singleton,
      flatten_singleton, MergeState.chain, SegmentContent.chain, hrows,
      chainOf_chainRows_toList]
  · intro key hunder
    refine ⟨fun segment hsegment => ?_, fun k hk => by cases hk⟩
    rcases mem_append.mp hsegment with hsegment | hsegment
    · exact hunder.segments segment hsegment
    · obtain ⟨row, hrow, hlast⟩ := content.exists_lastKey
      rw [mem_singleton.mp hsegment, ← hlast]
      exact hunder.buffered _ (mem_keys_of_chainRows hrows hrow)

theorem MergeState.Sound.settled {level : Nat} {disk : Disk} (h : state.Sound codec level disk) :
    MergeState.Sound codec level { segments := state.segments } disk :=
  ⟨h.present, h.level, h.apart, fun _ _ _ hk => by cases hk⟩

theorem wp_rollPartition {groupBytes : Nat} (h : state.Sound codec plan.targetLevel world.disk) :
    wp (rollPartition codec plan state groupBytes)
      (fun state' world' => Grows codec world world' ∧
        state'.Sound codec plan.targetLevel world'.disk ∧
        (∀ key, state'.chain key = state.chain key) ∧ ∀ key, state.Under key → state'.Under key)
      (fun _ world' => Grows codec world world') world := by
  unfold rollPartition
  rw [wp_bind, wp_get, wp_ite]
  split
  · exact wp_mono (wp_writeCompactionPartition h)
      (fun _ _ ⟨hg, hsound, _, hchain, hunder⟩ => ⟨hg, hsound, hchain, hunder⟩) fun _ _ hg => hg
  · exact ⟨Std.Refl.refl world, h, fun _ => rfl, fun _ => id⟩

theorem wp_bufferKey {retained : List VersionedValue}
    (h : state.Sound codec plan.targetLevel world.disk) (hnew : state.Under key) :
    wp (bufferKey codec plan state key retained)
      (fun state' world' => Grows codec world world' ∧
        state'.Sound codec plan.targetLevel world'.disk ∧
        (∀ k, state'.chain k = state.chain k ++ if k = key then retained else []) ∧
        ∀ k, key < k → state.Under k → state'.Under k)
      (fun _ world' => Grows codec world world') world := by
  unfold bufferKey
  refine wp_then (wp_rollPartition h) ?_ fun _ _ hg => hg
  rintro state' world' ⟨hg, hsound, hchain, hunder⟩
  have hnone : (state'.buffered.find? key).getD [] = [] := by
    have := (hchain key).trans hnew.chain_eq
    exact (append_eq_nil_iff.mp this).2
  have hkeys : ∀ k ∈ (state'.buffered.insert key retained).keys, k = key ∨
      k ∈ state'.buffered.keys := by
    intro k hk
    obtain ⟨entry, hentry, rfl⟩ := mem_map.mp hk
    exact (mem_insertList hentry).imp (congrArg Prod.fst) mem_map_of_mem
  refine ⟨hg, ⟨hsound.present, hsound.level, hsound.apart, ?_⟩, ?_, ?_⟩
  · intro segment hsegment k hk
    rcases hkeys k hk with rfl | hk
    · exact (hunder k hnew).segments segment hsegment
    · exact hsound.behind segment hsegment k hk
  · intro k
    rw [← hchain k]
    show chainsOf state'.segments k ++ ((state'.buffered.insert key retained).find? k).getD [] = _
    rw [find?_insert]
    split
    · rename_i hk
      subst hk
      rw [MergeState.chain, hnone, Option.getD_some, append_nil]
      rfl
    · rw [append_nil, MergeState.chain]
      rfl
  · intro k hlt hk
    refine ⟨(hunder k hk).segments, fun k' hk' => ?_⟩
    rcases hkeys k' hk' with rfl | hk'
    · exact hlt
    · exact (hunder k hk).buffered k' hk'

structure Merged (codec : Codec) (plan : MergePlan) (cursors : List (List Entry))
    (state state' : MergeState) (world world' : World) : Prop where
  grows : Grows codec world world'
  sound : state'.Sound codec plan.targetLevel world'.disk
  kept : ∀ key, ∃ out, state'.chain key = state.chain key ++ out ∧
    Kept plan key (chainOf key cursors.flatten) out

theorem kept_nil (plan : MergePlan) (key : Bytes) : Kept plan key [] [] :=
  ⟨List.Pairwise.nil, fun _ h => h, fun _ _ h => h, fun _ _ _ => Or.inl rfl⟩

/-- The keys of a state are before the keys still to be read. -/
def MergeState.Before (state : MergeState) (cursors : List (List Entry)) : Prop :=
  ∀ row ∈ cursors.flatten, state.Under row.1

theorem wp_mergeLoop (fuel : Nat) (hc : Cursors cursors) (hfuel : cursors.flatten.length < fuel)
    (hbefore : state.Before cursors) (hsound : state.Sound codec plan.targetLevel world.disk) :
    wp (mergeLoop codec plan fuel cursors state)
      (fun state' world' => Merged codec plan cursors state state' world world')
      (fun _ world' => Grows codec world world') world := by
  induction fuel generalizing world cursors state with
  | zero => omega
  | succ fuel ih =>
    unfold mergeLoop
    cases hkey : minKey cursors with
    | none =>
      refine ⟨Std.Refl.refl world, hsound, fun key => ⟨[], by simp, ?_⟩⟩
      rw [minKey_eq_none hkey]
      exact kept_nil plan key
    | some key =>
      obtain ⟨hhead, hmin⟩ := minKey_eq_some hc hkey
      refine silent_checkElapsed.seq (fun _ _ hs => hs.grows) fun _ ticked hticked => ?_
      refine wp_then (wp_observeRecords _) ?_ fun _ _ hs =>
        hticked.grows.trans hs.grows
      rintro versions observed ⟨hobserved, hversions⟩
      have hs : Silent world observed := hticked.trans hobserved
      rw [map_snd_records hc hmin] at hversions
      have hkept := kept_emitted plan key fun v => (hversions v).symm
      -- the rest of the run, from a state that has the emitted versions of the key
      have hrest : ∀ {state' : MergeState} {w : World}, Grows codec world w →
          state'.Sound codec plan.targetLevel w.disk →
          (∀ k, state'.chain k =
            state.chain k ++ if k = key then emitted plan key versions else []) →
          (∀ k, key < k → state.Under k → state'.Under k) →
          wp (mergeLoop codec plan fuel (advance key cursors) state')
            (fun state'' world' => Merged codec plan cursors state state'' world world')
            (fun _ world' => Grows codec world world') w := by
        intro state' w hg hsound' hchain hunder
        have hadvance := chainOf_advance hc hmin
        have hbefore' : state'.Before (advance key cursors) := by
          intro row hrow
          have hne : row.1 ≠ key := by
            intro heq
            have hrow' : (key, row.2) = row := by rw [← heq]
            have hin : row.2 ∈ chainOf key (advance key cursors).flatten :=
              mem_chainOf.mpr (hrow'.symm ▸ hrow)
            rw [hadvance key, if_pos rfl] at hin
            simp at hin
          have hin := mem_advance_flatten hrow
          exact hunder row.1 (lt_of_le_of_ne (hmin row hin) (Ne.symm hne)) (hbefore row hin)
        refine wp_mono (ih (hc.advance key) ?_ hbefore' hsound') ?_ fun _ _ hg' =>
          hg.trans hg'
        · have := advance_shorter hhead
          omega
        · rintro state'' world' ⟨hg', hsound'', hkept'⟩
          refine ⟨hg.trans hg', hsound'', fun k => ?_⟩
          obtain ⟨out, hout, hk⟩ := hkept' k
          rw [hadvance] at hk
          by_cases heq : k = key
          · subst heq
            rw [if_pos rfl] at hk
            have hnil : out = [] := subset_nil.mp hk.subset
            refine ⟨emitted plan k versions, ?_, hkept⟩
            rw [hout, hchain, if_pos rfl, hnil, append_nil]
          · rw [if_neg heq] at hk
            refine ⟨out, ?_, hk⟩
            rw [hout, hchain, if_neg heq, append_nil]
      rw [wp_ite]
      split
      · rename_i hretain
        have hemitted : emitted plan key versions =
            retainedVersions versions plan.protectedSequences plan.retainAllVersions := by
          rw [emitted]; exact if_pos hretain
        rw [wp_bind]
        have hnew : state.Under key := by
          obtain ⟨cursor, hcursor, row, rest, rfl, rfl⟩ := hhead
          exact hbefore row (mem_flatten.mpr ⟨_, hcursor, by simp⟩)
        refine wp_mono (wp_bufferKey (by rw [hs.disk]; exact hsound) hnew) ?_
          fun _ _ hg => hs.grows.trans hg
        rintro state' w ⟨hg, hsound', hchain, hunder⟩
        rw [← hemitted] at hchain
        exact hrest (hs.grows.trans hg) hsound' hchain hunder
      · rename_i hdrop
        have hemitted : emitted plan key versions = [] := by
          rw [emitted]; exact if_neg hdrop
        refine hrest hs.grows (by rw [hs.disk]; exact hsound) (fun k => ?_) fun _ _ => id
        rw [hemitted, ite_self, append_nil]

/-- The segments of a merge hold what it keeps of each key, in the order of their keys. -/
theorem wp_mergeCompactionCandidate {selected : List Segment} :
    wp (mergeCompactionCandidate codec plan selected)
      (fun compacted world' => Grows codec world world' ∧
        MergeState.Sound codec plan.targetLevel { segments := compacted } world'.disk ∧
        ∀ key, Kept plan key (chainsOf selected key) (chainsOf compacted key))
      (fun _ world' => Grows codec world world') world := by
  have hchain : ∀ key, chainOf key (selected.map (fun segment => segment.content.rows)).flatten =
      chainsOf selected key := by
    intro key
    rw [chainOf_flatten, flatMap_map]
    rfl
  have hc : Cursors (selected.map (fun segment => segment.content.rows)) := by
    intro cursor hcursor
    obtain ⟨segment, -, rfl⟩ := mem_map.mp hcursor
    exact segment.content.wellFormed.ordered
  have hstart : ({} : MergeState).Sound codec plan.targetLevel world.disk :=
    ⟨by simp, by simp, List.Pairwise.nil, by simp⟩
  unfold mergeCompactionCandidate
  refine wp_then (wp_mergeLoop _ hc (Nat.lt_succ_self _)
    (fun _ _ => ⟨by simp, fun _ hk => by cases hk⟩) hstart) ?_ fun _ _ hg => hg
  rintro state merged ⟨hg, hsound, hkept⟩
  have hkept' : ∀ key, Kept plan key (chainsOf selected key) (state.chain key) := by
    intro key
    obtain ⟨out, hout, hk⟩ := hkept key
    rw [hchain] at hk
    have hempty : ({} : MergeState).chain key = [] := by simp [MergeState.chain]
    rwa [hout, hempty, nil_append]
  rw [wp_ite]
  split
  · rename_i hempty
    refine ⟨hg, hsound.settled, fun key => ?_⟩
    have hnone : state.buffered.find? key = none := by
      rw [find?_eq_none_iff, SortedMap.keys, isEmpty_iff.mp hempty]
      simp
    have := hkept' key
    rwa [MergeState.chain, hnone, Option.getD_none, append_nil] at this
  · refine wp_then (wp_writeCompactionPartition hsound) ?_ fun _ _ hg' =>
      hg.trans hg'
    rintro state' written ⟨hg', hsound', hbuffered, hchain', -⟩
    refine ⟨hg.trans hg', hsound'.settled, fun key => ?_⟩
    have := hkept' key
    rw [← hchain', MergeState.chain, hbuffered] at this
    simpa [chainsOf] using this

end Rrflow.Lsm

import Rrflow.Lsm.LeveledShape

/-!
Explicit compaction comes to an end.

What a merge writes is at the level below its sources, and no version is written
twice. So the versions of the segments, counted with the levels that they can still
sink, get fewer with each merge, whatever the number of segments does. A flush adds to
them. But it leaves an empty table, and the next one has nothing to do.
-/

namespace Rrflow.Lsm

open Eff List

variable {codec : Codec} {world : World}

/-- The versions of some segments, each with the levels that it can still sink. -/
def levelBacklog (top : Nat) (segments : List Segment) : Nat :=
  (segments.map fun segment => (top - segment.level) * segment.content.rows.length).sum

section Merge

variable {top : Nat} {segments compacted selected : List Segment} {indices : List Nat}

def takenSegments (segments : List Segment) (indices : List Nat) : List Segment :=
  (segments.zipIdx.filter fun position => position.2 ∈ indices).map Prod.fst

theorem mem_takenSegments {segment : Segment} :
    segment ∈ takenSegments segments indices ↔ segment ∈ segmentsAt segments indices := by
  simp [takenSegments, mem_segmentsAt, mem_zipIdx_iff_getElem?, and_comm]

theorem unselected_append_taken_perm :
    (unselectedSegments segments indices ++ takenSegments segments indices).Perm segments := by
  have h := (filter_append_perm (fun position : Segment × Nat =>
    decide (position.2 ∉ indices)) segments.zipIdx).map Prod.fst
  rw [map_append, zipIdx_map_fst] at h
  simpa [takenSegments, unselectedSegments] using h

/-- A merge writes no version twice and none that it did not read. -/
theorem length_rows_le
    (hapart : compacted.Pairwise fun a b => a.content.lastKey < b.content.firstKey)
    (hsubset : ∀ key, chainsOf compacted key ⊆ chainsOf selected key) :
    (compacted.map fun segment => segment.content.rows.length).sum ≤
      (selected.map fun segment => segment.content.rows.length).sum := by
  have hnodup : (compacted.flatMap fun segment => segment.content.rows).Nodup := by
    refine nodup_flatMap.mpr ⟨fun segment _ => ?_, hapart.imp fun {a b} hlt row ha hb => ?_⟩
    · refine segment.content.wellFormed.ordered.imp fun hrow heq => ?_
      rcases hrow with hlt | ⟨-, hlt⟩
      · exact hlt.ne (congrArg Prod.fst heq)
      · exact hlt.ne (by rw [heq])
    · exact ((a.content.le_lastKey ha).trans_lt hlt).not_ge (b.content.firstKey_le hb)
  have hsub : (compacted.flatMap fun segment => segment.content.rows) ⊆
      selected.flatMap fun segment => segment.content.rows := by
    intro row hrow
    obtain ⟨segment, hsegment, hrow⟩ := mem_flatMap.mp hrow
    obtain ⟨b, hb, hv⟩ := mem_chainsOf.mp
      (hsubset row.1 (mem_chainsOf.mpr ⟨segment, hsegment, mem_chainOf.mpr hrow⟩))
    exact mem_flatMap.mpr ⟨b, hb, mem_chainOf.mp hv⟩
  simpa only [length_flatMap] using (hnodup.subperm hsub).length_le

theorem Regrouped.levelBacklog_lt {candidate : CompactionCandidate} {merged : List Segment}
    (h : Regrouped segments candidate merged) (hsuitable : candidate.Suitable top segments) :
    levelBacklog top merged < levelBacklog top segments := by
  obtain ⟨compacted, rfl, hlevel, hapart, hsubset⟩ := h
  have hrows := @length_rows_le _ (takenSegments segments candidate.indices) hapart
    fun key v hv => by
      simpa only [mem_chainsOf, mem_takenSegments] using hsubset key hv
  have hwritten : levelBacklog top compacted = (top - candidate.targetLevel) *
      (compacted.map fun segment => segment.content.rows.length).sum := by
    rw [levelBacklog, ← sum_map_mul_left]
    exact congrArg List.sum (map_congr_left fun segment hsegment => by
      rw [hlevel segment hsegment])
  -- what is taken of the target level counts as before, the sources count for one level more
  have htaken : (top - candidate.targetLevel) *
      ((takenSegments segments candidate.indices).map fun segment =>
        segment.content.rows.length).sum <
        levelBacklog top (takenSegments segments candidate.indices) := by
    rw [levelBacklog, ← sum_map_mul_left]
    obtain ⟨source, hsource, hsinks⟩ := hsuitable.sinks
    refine sum_lt_sum _ _ (fun segment hsegment => ?_)
      ⟨source, mem_takenSegments.mpr hsource, ?_⟩
    · exact Nat.mul_le_mul_right _ (Nat.sub_le_sub_left
        (hsuitable.near segment (mem_takenSegments.mp hsegment)) top)
    · obtain ⟨row, hrow, -⟩ := source.content.exists_firstKey
      have hwithin := hsuitable.within
      exact Nat.mul_lt_mul_of_pos_right (by omega) (length_pos_of_mem hrow)
  have happend : ∀ rest, levelBacklog top (unselectedSegments segments candidate.indices ++ rest) =
      levelBacklog top (unselectedSegments segments candidate.indices) + levelBacklog top rest := by
    intro rest
    rw [levelBacklog, map_append, sum_append]
    rfl
  calc levelBacklog top (unselectedSegments segments candidate.indices ++ compacted)
    _ ≤ levelBacklog top (unselectedSegments segments candidate.indices) +
        (top - candidate.targetLevel) * ((takenSegments segments candidate.indices).map
          fun segment => segment.content.rows.length).sum := by
      rw [happend, hwritten]
      exact Nat.add_le_add_left (Nat.mul_le_mul_left _ hrows) _
    _ < levelBacklog top (unselectedSegments segments candidate.indices ++
        takenSegments segments candidate.indices) := by
      rw [happend]
      exact Nat.add_lt_add_left htaken _
    _ = levelBacklog top segments := (unselected_append_taken_perm.map _).sum_eq

end Merge

/-- Whether there is a table to flush, and then the backlog of the levels. -/
def Database.backlog (db : Database) : Nat ×ₗ Nat :=
  toLex (if db.memtable.versionCount = 0 then 0 else 1,
    levelBacklog db.options.compaction.maxLevel db.segments)

variable (createdAt : Nat)

theorem wp_publishFlushed_empties (failure : Option (FlushBoundary × FailureMode)) (sequence : Nat)
    (flushed : List Segment) : wp (publishFlushed codec createdAt failure sequence flushed)
      (fun _ world' => world'.db.memtable.versionCount = 0 ∧
        world'.db.options = world.db.options) (fun _ _ => True) world := by
  unfold publishFlushed
  rw [wp_bind, wp_get, wp_bind]
  refine wp_increment (fun _ => ?_) trivial
  refine wp_then (@wp_successorWal codec _ _) (fun _ logged hlogged => ?_) fun _ _ _ => trivial
  refine (silent_injectAt _ _ _).seq (fun _ _ _ => trivial) fun _ injected hinjected => ?_
  refine wp_then (wp_successorManifest (by decide)) ?_ fun _ _ _ => trivial
  rintro next _ ⟨rfl, -⟩
  refine silent_checkElapsed.seq (fun _ _ _ => trivial) fun _ checked hchecked => ?_
  refine wp_then (wp_publish next _) (fun _ published hp => ?_) fun _ _ _ => trivial
  rw [wp_bind, wp_modifyDb]
  refine (silent_injectAt _ _ _).seq (fun _ _ _ => trivial) fun _ done hdone => ?_
  rw [wp_pure, hdone.db]
  refine ⟨rfl, ?_⟩
  show published.db.options = _
  rw [hp.db, hchecked.db, hinjected.db, hlogged.1.db]

theorem wp_flushMemtableInner_empties (failure : Option (FlushBoundary × FailureMode)) :
    wp (flushMemtableInner codec createdAt failure)
      (fun _ world' => world'.db.memtable.versionCount = 0 ∧
        world'.db.options = world.db.options ∧
        (world.db.memtable.versionCount = 0 → world'.db.segments = world.db.segments))
      (fun _ _ => True) world := by
  refine silent_ensureWriterReady.seq (fun _ _ _ => trivial) fun _ ready hready => ?_
  rw [wp_bind, wp_get, hready.db]
  refine wp_cond (fun hempty => ?_) fun hfull => ?_
  · exact ⟨by rwa [hready.db], by rw [hready.db], fun _ => by rw [hready.db]⟩
  refine Preserves.seq (R := Silent) (fun w => wp_mono (wp_plan _) (fun _ _ h => h.1)
    fun _ _ h => h) (fun _ _ _ => trivial) fun plan planned hplanned => ?_
  refine (silent_injectAt _ _ _).seq (fun _ _ _ => trivial) fun _ synced hsynced => ?_
  rw [wp_bind, wp_modifyDb]
  have hwrites : Preserves (Grows codec) (Eff.foldlM (fun flushed
      (bounds : Bytes × Option Bytes) => do
        checkElapsed
        let content ← writeSegment codec (world.db.memtable.rangeVersions bounds.1 bounds.2)
        return flushed ++ [({ content, level := 0 } : Segment)]) []
      (partitionBounds plan.boundaries)) :=
    Preserves.foldlM (fun _ _ => (grows_of_silent silent_checkElapsed).bind fun _ =>
      Preserves.bind (fun w => wp_mono wp_writeSegment (fun _ _ h => h.1) fun _ _ h => h)
        fun _ => preserves_pure _) _ _
  refine hwrites.seq (fun _ _ _ => trivial) fun flushed written hwritten => ?_
  refine (silent_injectAt _ _ _).seq (fun _ _ _ => trivial) fun _ stored hstored => ?_
  have hoptions : stored.db.options = world.db.options := by
    rw [hstored.db, hwritten.db]
    show synced.db.options = _
    rw [((hready.trans hplanned).trans hsynced).db]
  refine wp_mono (wp_publishFlushed_empties createdAt failure _ flushed) ?_ fun _ _ h => h
  exact fun _ _ h => ⟨h.1, h.2.trans hoptions, fun hempty => absurd hempty hfull⟩

theorem wp_publishCompacted_segments (failure : Option (CompactionBoundary × FailureMode))
    (segments : List Segment) : wp (publishCompacted codec createdAt failure segments)
      (fun _ world' => world'.db.segments = segments ∧
        world'.db.memtable = world.db.memtable ∧ world'.db.options = world.db.options)
      (fun _ _ => True) world := by
  unfold publishCompacted
  rw [wp_bind, wp_get]
  refine wp_then (wp_successorManifest (by decide)) ?_ fun _ _ _ => trivial
  rintro next _ ⟨rfl, -⟩
  refine silent_checkElapsed.seq (fun _ _ _ => trivial) fun _ checked hchecked => ?_
  refine wp_then (wp_publish next _) (fun _ published hp => ?_) fun _ _ _ => trivial
  rw [wp_bind, wp_modifyDb, hp.db, hchecked.db]
  refine (silent_injectAt _ _ _).seq (fun _ _ _ => trivial) fun _ done hdone => ?_
  rw [wp_pure, hdone.db]
  exact ⟨rfl, rfl, rfl⟩

theorem wp_compactSegmentsInner_sinks (protectedSnapshots : List Nat) (createdAt : Nat)
    (failure : Option (CompactionBoundary × FailureMode)) (force retainAllVersions : Bool) :
    wp (compactSegmentsInner codec protectedSnapshots createdAt failure force retainAllVersions)
      (fun outcome world' => outcome.isSome → world'.db.memtable = world.db.memtable ∧
        world'.db.options = world.db.options ∧
        levelBacklog world.db.options.compaction.maxLevel world'.db.segments <
          levelBacklog world.db.options.compaction.maxLevel world.db.segments)
      (fun _ _ => True) world := by
  refine silent_ensureWriterReady.seq (fun _ _ _ => trivial) fun _ ready hready => ?_
  refine wp_then (wp_selectCompactionCandidate hready force) ?_ fun _ _ _ => trivial
  rintro candidate selected ⟨hselected, hsuitable⟩
  cases candidate with
  | none => exact fun hsome => by cases hsome
  | some candidate =>
    refine (silent_admitCompactionInput candidate).seq (fun _ _ _ => trivial)
      fun _ admitted hadmitted => ?_
    rw [wp_bind, wp_get]
    refine wp_then (wp_mergeSelected protectedSnapshots retainAllVersions candidate) ?_
      fun _ _ _ => trivial
    rintro segments merged ⟨hg, hregrouped, -⟩
    refine (silent_injectAt _ _ _).seq (fun _ _ _ => trivial) fun _ injected hinjected => ?_
    refine wp_then (wp_publishCompacted_segments createdAt failure segments) ?_ fun _ _ _ => trivial
    rintro next published ⟨hsegments, htable, hoptions⟩ -
    rw [hinjected.db, hg.db, hadmitted.db, hselected.db] at htable hoptions
    rw [hadmitted.db, hselected.db] at hregrouped
    exact ⟨htable, hoptions, hsegments ▸ hregrouped.levelBacklog_lt (hsuitable candidate rfl)⟩

theorem backlog_compact {protectedSnapshots : List Nat} {createdAt : Nat}
    {outcome : CompactionOutcome} {world' : World}
    (h : compact codec protectedSnapshots createdAt world = (.ok (some outcome), world')) :
    world'.db.backlog < world.db.backlog := by
  refine wp_eq (Q := fun outcome world' => outcome.isSome → world'.db.backlog < world.db.backlog)
    (E := fun _ _ => True) ?_ h rfl
  refine wp_seq (wp_flushMemtableInner_empties createdAt none) ?_
  rintro _ flushed ⟨hempty, hoptions, hsame⟩
  refine wp_mono (wp_compactSegmentsInner_sinks protectedSnapshots createdAt none true false) ?_
    fun _ _ _ => trivial
  intro outcome compacted hsinks hsome
  obtain ⟨htable, hoptions', hlt⟩ := hsinks hsome
  rw [Database.backlog, htable, hempty, if_pos rfl, hoptions', hoptions, Database.backlog,
    Prod.Lex.toLex_lt_toLex]
  rw [hoptions] at hlt
  by_cases hfull : world.db.memtable.versionCount = 0
  · refine .inr ⟨(if_pos hfull).symm, ?_⟩
    rw [← hsame hfull]
    exact hlt
  · refine .inl ?_
    rw [if_neg hfull]
    exact Nat.zero_lt_one

/-- Nothing was written between two states of a database. -/
structure Database.Unwritten (before after : Database) : Prop where
  options : after.options = before.options
  memtable : after.memtable = before.memtable
  segments : after.segments = before.segments

/-- When nothing is written between the calls, each call that compacts something lowers a
well-founded measure of where the stored versions are, and some call compacts nothing or
fails. -/
theorem compaction_terminates {requests : Nat → List Nat × Nat} {worlds : Nat → World}
    (h : ∀ n, (compact codec (requests n).1 (requests n).2 (worlds n)).2.db.Unwritten
      (worlds (n + 1)).db) :
    (∀ n outcome, (compact codec (requests n).1 (requests n).2 (worlds n)).1 =
      .ok (some outcome) → (worlds (n + 1)).db.backlog < (worlds n).db.backlog) ∧
    ∃ n, ∀ outcome, (compact codec (requests n).1 (requests n).2 (worlds n)).1 ≠
      .ok (some outcome) := by
  have hstep : ∀ n outcome, (compact codec (requests n).1 (requests n).2 (worlds n)).1 =
      .ok (some outcome) → (worlds (n + 1)).db.backlog < (worlds n).db.backlog := by
    intro n outcome hok
    have hlt := backlog_compact (Prod.ext hok rfl)
    rwa [Database.backlog, ← (h n).options, ← (h n).memtable, ← (h n).segments] at hlt
  refine ⟨hstep, ?_⟩
  by_contra hnever
  push Not at hnever
  obtain ⟨n, hn⟩ := WellFounded.not_rel_apply_succ (r := (· < ·)) fun n => (worlds n).db.backlog
  obtain ⟨outcome, hok⟩ := hnever n
  exact hn (hstep n outcome hok)

def compactions (codec : Codec) (world : World) : Nat → World
  | 0 => world
  | n + 1 => (compact codec [] n (compactions codec world n)).2

/-- Two segments of the first level are merged, and then no call finds more to do. -/
theorem compaction_terminates_two :
    (∃ outcome, (compact Ideal.codec [] 0 (compactions Ideal.codec Ideal.twoSegments 0)).1 =
      .ok (some outcome)) ∧
    ∃ n, ∀ outcome, (compact Ideal.codec [] n (compactions Ideal.codec Ideal.twoSegments n)).1 ≠
      .ok (some outcome) := by
  refine ⟨?_, (@compaction_terminates _ (fun n => ([], n)) _ fun n => ⟨rfl, rfl, rfl⟩).2⟩
  have hsome : ((compact Ideal.codec [] 0 Ideal.twoSegments).1.toOption.bind id).isSome := by
    decide +kernel
  show ∃ outcome, (compact Ideal.codec [] 0 Ideal.twoSegments).1 = _
  generalize (compact Ideal.codec [] 0 Ideal.twoSegments).1 = result at hsome ⊢
  rcases result with _ | _ | outcome
  · cases hsome
  · cases hsome
  · exact ⟨outcome, rfl⟩

end Rrflow.Lsm

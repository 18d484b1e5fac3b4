import Rrflow.Lsm.FlushSpec
import Rrflow.Lsm.MergeSpec

/-!
What a compaction does: some segments are replaced by the merge of them. Which
segments the selection picks does not matter for what readers see.

It does matter for the shape of the levels. A compaction takes some segments of one
level, and of the next level all that overlap the hull of their ranges. Whatever it
writes lies between the segments of the next level that it leaves: one of them that
ends before the hull also ends before every taken segment of its own level, and in the
same way on the other side. So the list after the merge is leveled again, and the
manifest built from it is valid.
-/

namespace Rrflow.Lsm

open Eff Latest Checks List VersionedValue

variable {codec : Codec}

variable {world : World} {prune : Bool} {s : Nat} {next : Manifest}

variable {segment : Segment}

section Selected

variable {segments : List Segment} {indices : List Nat} {key : Bytes} {v w : VersionedValue}

theorem mem_segmentsAt :
    segment ∈ segmentsAt segments indices ↔ ∃ i ∈ indices, segments[i]? = some segment := by
  simp [segmentsAt, mem_filterMap]

theorem mem_unselectedSegments :
    segment ∈ unselectedSegments segments indices ↔
      ∃ i, i ∉ indices ∧ segments[i]? = some segment := by
  simp only [unselectedSegments, mem_map, mem_filter, decide_eq_true_eq, Prod.exists,
    exists_eq_right, exists_and_right, mem_zipIdx_iff_getElem?]
  constructor
  · rintro ⟨i, hget, hi⟩
    exact ⟨i, hi, hget⟩
  · rintro ⟨i, hi, hget⟩
    exact ⟨i, hget, hi⟩

theorem unselectedSegments_sublist : (unselectedSegments segments indices).Sublist segments := by
  have h := (filter_sublist (l := segments.zipIdx)
    (p := fun position => decide (position.2 ∉ indices))).map Prod.fst
  rwa [zipIdx_map_fst] at h

theorem mem_chainsOf_split :
    v ∈ chainsOf segments key ↔ v ∈ chainsOf (unselectedSegments segments indices) key ∨
      v ∈ chainsOf (segmentsAt segments indices) key := by
  simp only [mem_chainsOf, mem_segmentsAt, mem_unselectedSegments]
  constructor
  · rintro ⟨segment, hsegment, hv⟩
    obtain ⟨i, hget⟩ := mem_iff_getElem?.mp hsegment
    by_cases hi : i ∈ indices
    · exact Or.inr ⟨segment, ⟨i, hi, hget⟩, hv⟩
    · exact Or.inl ⟨segment, ⟨i, hi, hget⟩, hv⟩
  · rintro (⟨segment, ⟨i, -, hget⟩, hv⟩ | ⟨segment, ⟨i, -, hget⟩, hv⟩)
    · exact ⟨segment, mem_of_getElem? hget, hv⟩
    · exact ⟨segment, mem_of_getElem? hget, hv⟩

theorem sequence_ne_of_split (hnd : ((chainsOf segments key).map sequence).Nodup)
    (hv : v ∈ chainsOf (unselectedSegments segments indices) key)
    (hw : w ∈ chainsOf (segmentsAt segments indices) key) : v.sequence ≠ w.sequence := by
  obtain ⟨a, ha, hv⟩ := mem_chainsOf.mp hv
  obtain ⟨b, hb, hw⟩ := mem_chainsOf.mp hw
  obtain ⟨i, hi, hgeta⟩ := mem_unselectedSegments.mp ha
  obtain ⟨j, hj, hgetb⟩ := mem_segmentsAt.mp hb
  have hij : i ≠ j := fun heq => hi (heq ▸ hj)
  rw [chainsOf, map_flatten, map_map] at hnd
  have hdisjoint := disjoint_of_nodup_flatten hnd (i := i) (j := j)
    (by rw [getElem?_map, hgeta]; rfl) (by rw [getElem?_map, hgetb]; rfl) hij
  intro heq
  exact hdisjoint (mem_map_of_mem hv) (heq ▸ mem_map_of_mem hw)

end Selected

section Hulls

variable {segments : List Segment}

/-- A candidate with a hull: what it takes lies in the hull, or overlaps it in the target
level, and of that level it leaves nothing that does. -/
structure CompactionCandidate.Closed (segments : List Segment) (candidate : CompactionCandidate)
    (first last : Bytes) : Prop where
  target : candidate.targetLevel ≠ 0
  taken : ∀ segment ∈ segmentsAt segments candidate.indices,
    (first ≤ segment.content.firstKey ∧ segment.content.lastKey ≤ last) ∨
      (segment.level = candidate.targetLevel ∧
        rangesOverlap first last segment.content.firstKey segment.content.lastKey = true)
  left : ∀ segment ∈ unselectedSegments segments candidate.indices,
    segment.level = candidate.targetLevel →
      ¬rangesOverlap first last segment.content.firstKey segment.content.lastKey = true

theorem Leveled.apart_of_split {indices : List Nat} {a b : Segment} (h : Leveled segments)
    (ha : a ∈ unselectedSegments segments indices) (hb : b ∈ segmentsAt segments indices)
    (hlevel : a.level = b.level) (hne : a.level ≠ 0) :
    a.Apart b := by
  obtain ⟨i, hi, hgeta⟩ := mem_unselectedSegments.mp ha
  obtain ⟨j, hj, hgetb⟩ := mem_segmentsAt.mp hb
  obtain ⟨hi', rfl⟩ := List.getElem?_eq_some_iff.mp hgeta
  obtain ⟨hj', rfl⟩ := List.getElem?_eq_some_iff.mp hgetb
  rcases Nat.lt_or_gt_of_ne (fun heq : i = j => hi (heq ▸ hj)) with hlt | hlt
  · exact List.pairwise_iff_getElem.mp h i j hi' hj' hlt hlevel hne
  · exact (List.pairwise_iff_getElem.mp h j i hj' hi' hlt hlevel.symm (hlevel ▸ hne)).symm

/-- A segment that is left in the target level is on one side of everything taken. -/
theorem CompactionCandidate.Closed.beside {candidate : CompactionCandidate} {first last : Bytes}
    (h : candidate.Closed segments first last) (hleveled : Leveled segments) {a : Segment}
    (ha : a ∈ unselectedSegments segments candidate.indices)
    (hlevel : a.level = candidate.targetLevel) :
    (∀ b ∈ segmentsAt segments candidate.indices, a.content.lastKey < b.content.firstKey) ∨
      ∀ b ∈ segmentsAt segments candidate.indices, b.content.lastKey < a.content.firstKey := by
  have hapart := fun b hb hb' => hleveled.apart_of_split (a := a) (b := b) ha hb
    (hlevel.trans (Eq.symm hb')) (hlevel ▸ h.target)
  have hrange := a.content.firstKey_le_lastKey
  have houtside := h.left a ha hlevel
  rw [rangesOverlap, Bool.and_eq_true, decide_eq_true_eq, decide_eq_true_eq, not_and_or, not_le,
    not_le] at houtside
  rcases houtside with hbefore | hafter
  · refine .inl fun b hb => ?_
    rcases h.taken b hb with ⟨hfirst, -⟩ | ⟨hb', hoverlap⟩
    · exact hbefore.trans_le hfirst
    · rw [rangesOverlap, Bool.and_eq_true, decide_eq_true_eq, decide_eq_true_eq] at hoverlap
      refine (hapart b hb hb').resolve_right fun hlt => ?_
      exact lt_irrefl _ ((hlt.trans_le hrange).trans (hbefore.trans_le hoverlap.1))
  · refine .inr fun b hb => ?_
    rcases h.taken b hb with ⟨-, hlast⟩ | ⟨hb', hoverlap⟩
    · exact hlast.trans_lt hafter
    · rw [rangesOverlap, Bool.and_eq_true, decide_eq_true_eq, decide_eq_true_eq] at hoverlap
      refine (hapart b hb hb').resolve_left fun hlt => ?_
      exact lt_irrefl _ ((hafter.trans_le hrange).trans (hlt.trans_le hoverlap.2))

/-- The keys of the written segments are keys of the taken ones. -/
theorem exists_taken {compacted selected : List Segment}
    (hsubset : ∀ key, chainsOf compacted key ⊆ chainsOf selected key)
    (hsegment : segment ∈ compacted) {row : Entry} (hrow : row ∈ segment.content.rows) :
    ∃ b ∈ selected, b.content.firstKey ≤ row.1 ∧ row.1 ≤ b.content.lastKey := by
  obtain ⟨b, hb, hv⟩ := mem_chainsOf.mp
    (hsubset row.1 (mem_chainsOf.mpr ⟨segment, hsegment, mem_chainOf.mpr hrow⟩))
  exact ⟨b, hb, b.content.firstKey_le (mem_chainOf.mp hv), b.content.le_lastKey (mem_chainOf.mp hv)⟩

end Hulls

/-! ### Selection -/

variable {key : Bytes}

theorem min?_getD_le {l : List Bytes} (h : key ∈ l) : l.min?.getD [] ≤ key := by
  cases hmin : l.min? with
  | none =>
    rw [min?_eq_none_iff.mp hmin] at h
    cases h
  | some m => exact (min?_eq_some_iff.mp hmin).2 key h

theorem le_max?_getD {l : List Bytes} (h : key ∈ l) : key ≤ l.max?.getD [] := by
  cases hmax : l.max? with
  | none =>
    rw [max?_eq_none_iff.mp hmax] at h
    cases h
  | some m => exact (max?_eq_some_iff.mp hmax).2 key h

theorem silent_checkedTotal (total add : Nat) (reason : String) :
    Preserves Silent (checkedTotal total add reason) := by
  unfold checkedTotal
  split
  · exact preserves_pure _
  · exact preserves_fail _

theorem silent_admitCompactionInput (candidate : CompactionCandidate) :
    Preserves Silent (admitCompactionInput codec candidate) := by
  refine preserves_get.bind fun world => Preserves.bind (Preserves.foldlM ?_ _ _)
    fun _ => preserves_pure _
  intro input segment
  refine (silent_checkedTotal _ _ _).bind fun _ => (silent_checkedTotal _ _ _).bind fun _ =>
    (silent_checkedTotal _ _ _).bind fun _ => (preserves_ofExcept _).bind fun _ =>
    (preserves_ofExcept _).bind fun _ => (preserves_ofExcept _).bind fun _ =>
    silent_checkElapsed.bind fun _ => preserves_pure _

theorem spared_admitCompactionInput (candidate : CompactionCandidate) :
    Spared (admitCompactionInput codec candidate) := by
  have htotal : ∀ total add reason, Spared (checkedTotal total add reason) := by
    intro total add reason
    unfold checkedTotal
    split
    · exact raises_pure _
    · exact spared_fail rfl
  refine raises_get.bind fun world => Raises.bind (Raises.foldlM ?_ _ _) fun _ => raises_pure _
  exact fun input segment => (htotal _ _ _).bind fun _ => (htotal _ _ _).bind fun _ =>
    (htotal _ _ _).bind fun _ => (spared_check _ _ _).bind fun _ =>
    (spared_check _ _ _).bind fun _ => (spared_check _ _ _).bind fun _ =>
    spared_checkElapsed.bind fun _ => raises_pure _

/-- A candidate as the selection finds it: closed, and between two levels, of which the upper
one gives something up. -/
structure CompactionCandidate.Suitable (top : Nat) (segments : List Segment)
    (candidate : CompactionCandidate) : Prop where
  closed : ∃ first last, candidate.Closed segments first last
  within : candidate.targetLevel ≤ top
  near : ∀ segment ∈ segmentsAt segments candidate.indices, segment.level ≤ candidate.targetLevel
  sinks : ∃ segment ∈ segmentsAt segments candidate.indices, segment.level < candidate.targetLevel

/-- What a search has found is suitable, and it was denied for a size only. -/
structure CandidateSearch.Sound (top : Nat) (segments : List Segment) (search : CandidateSearch) :
    Prop where
  found : ∀ c, search.found = some c → c.Suitable top segments
  denied : ∀ e, search.denied = some e → ¬HasReason e

/-- An end of the selection: nothing has changed, and no manifest is the reason. -/
def SelectionFails (world : World) (e : Error) (world' : World) : Prop :=
  Silent world world' ∧ ¬HasReason e

def Placed (segments : List Segment) (level : Nat) (positions : List Nat) : Prop :=
  ∀ i ∈ positions, ∃ segment, segments[i]? = some segment ∧ segment.level = level

variable {segments : List Segment}

/-- With everything of the next level that overlaps their hull, the sources are suitable. -/
theorem suitable_of_overlap {top sourceLevel : Nat}
    {sources indices : List Nat} {first last : Bytes} (hplaced : Placed segments sourceLevel sources)
    (hne : sources ≠ []) (htop : sourceLevel < top)
    (hhull : ∀ segment ∈ segmentsAt segments sources,
      first ≤ segment.content.firstKey ∧ segment.content.lastKey ≤ last)
    (hindices : ∀ i, i ∈ indices ↔ i ∈ sources ∨ ∃ segment, segments[i]? = some segment ∧
      segment.level = sourceLevel + 1 ∧
        rangesOverlap first last segment.content.firstKey segment.content.lastKey = true) :
    CompactionCandidate.Suitable top segments ⟨indices, sourceLevel, sourceLevel + 1⟩ := by
  have htaken : ∀ segment ∈ segmentsAt segments indices, segment ∈ segmentsAt segments sources ∨
      segment.level = sourceLevel + 1 ∧ rangesOverlap first last segment.content.firstKey
        segment.content.lastKey = true := by
    intro segment hsegment
    obtain ⟨i, hi, hget⟩ := mem_segmentsAt.mp hsegment
    rcases (hindices i).mp hi with hi | ⟨other, hother, h⟩
    · exact .inl (mem_segmentsAt.mpr ⟨i, hi, hget⟩)
    · rw [hget] at hother
      cases hother
      exact .inr h
  refine ⟨⟨first, last, Nat.succ_ne_zero _, fun segment hsegment => ?_,
    fun segment hsegment hlevel hoverlap => ?_⟩, htop, fun segment hsegment => ?_, ?_⟩
  · exact (htaken segment hsegment).imp_left (hhull segment)
  · obtain ⟨i, hi, hget⟩ := mem_unselectedSegments.mp hsegment
    exact hi ((hindices i).mpr (.inr ⟨segment, hget, hlevel, hoverlap⟩))
  · rcases htaken segment hsegment with hsource | ⟨hlevel, -⟩
    · obtain ⟨i, hi, hget⟩ := mem_segmentsAt.mp hsource
      obtain ⟨other, hother, hlevel⟩ := hplaced i hi
      rw [hget] at hother
      cases hother
      exact hlevel.le.trans (Nat.le_succ _)
    · exact hlevel.le
  · obtain ⟨i, hi⟩ := exists_mem_of_ne_nil _ hne
    obtain ⟨segment, hget, hlevel⟩ := hplaced i hi
    exact ⟨segment, mem_segmentsAt.mpr ⟨i, (hindices i).mpr (.inl hi), hget⟩,
      hlevel.trans_lt (Nat.lt_succ_self _)⟩

theorem slice_ne_nil {α : Type} {l : List α} {limit : Nat} {slice : Nat × Nat}
    (h : slice ∈ slices l.length limit) : (l.drop slice.1).take slice.2 ≠ [] := by
  simp only [slices, mem_flatMap, mem_range, mem_map, mem_reverse] at h
  obtain ⟨start, hstart, take, -, rfl⟩ := h
  rw [Ne, take_eq_nil_iff, not_or, drop_eq_nil_iff]
  exact ⟨Nat.succ_ne_zero _, not_le.mpr hstart⟩

section Search

variable {w : World} (hs : Silent world w)

include hs

theorem wp_tick {α : Type} {f : Unit → Run α} {Q : α → World → Prop}
    (hf : ∀ u w', Silent world w' → wp (f u) Q (SelectionFails world) w') :
    wp (checkElapsed >>= f) Q (SelectionFails world) w :=
  Raises.step (A := True) (fun _ => spared_checkElapsed) silent_checkElapsed hs
    (fun _ _ hs' hr => ⟨hs', hr trivial⟩) hf

variable {top sourceLevel : Nat}

/-- The hull of the sources closes the candidate. -/
theorem wp_compactionOverlapCandidate {sources : List Nat}
    (hplaced : Placed world.db.segments sourceLevel sources) (hne : sources ≠ [])
    (htop : sourceLevel < top) :
    wp (compactionOverlapCandidate sources sourceLevel)
      (fun candidate world' => Silent world world' ∧ ∀ c, candidate = some c →
        c.Suitable top world.db.segments)
      (SelectionFails world) w := by
  unfold compactionOverlapCandidate
  rw [wp_bind, wp_get, hs.db]
  set contents := (segmentsAt world.db.segments sources).map Segment.content
  set first := (contents.map SegmentContent.firstKey).min?.getD []
  set last := (contents.map SegmentContent.lastKey).max?.getD []
  -- of the positions seen, those that overlap the hull are taken
  refine wp_seq (wp_foldlM (fun seen indices world' => Silent world world' ∧
    ∀ l, indices = some l → l = sources ++ (seen.filter fun position : Segment × Nat =>
      position.1.level = sourceLevel + 1 ∧ rangesOverlap first last position.1.content.firstKey
        position.1.content.lastKey = true).map Prod.snd) ⟨hs, by simp⟩ ?_) ?_
  · rintro seen position rest indices world' - ⟨hs, hindices⟩
    cases indices with
    | none => exact ⟨hs, by simp⟩
    | some l =>
      obtain rfl := hindices l rfl
      refine wp_tick hs fun _ ticked hs' => ?_
      rw [wp_ite]
      split
      next hover =>
        rw [wp_ite]
        split
        · exact ⟨hs', by simp⟩
        · refine ⟨hs', ?_⟩
          rintro _ ⟨⟩
          rw [filter_append, filter_cons, if_pos (decide_eq_true hover), map_append, append_assoc]
          rfl
      next hover =>
        refine ⟨hs', ?_⟩
        rintro _ ⟨⟩
        rw [filter_append, filter_cons, if_neg (decide_eq_true_iff.not.mpr hover),
          filter_nil, append_nil]
  · rintro indices world' ⟨hs, hindices⟩
    refine ⟨hs, fun c hc => ?_⟩
    obtain ⟨l, rfl, rfl⟩ := Option.map_eq_some_iff.mp hc
    obtain rfl := hindices l rfl
    refine @suitable_of_overlap _ _ _ _ _ first last hplaced hne htop
      (fun segment hsegment => ?_) fun i => ?_
    · have hmem : segment.content ∈ contents := mem_map_of_mem hsegment
      exact ⟨min?_getD_le (mem_map_of_mem hmem), le_max?_getD (mem_map_of_mem hmem)⟩
    · rw [(perm_insertionSort _ _).mem_iff]
      simp only [mem_append, mem_map, mem_filter, decide_eq_true_eq, Prod.exists,
        exists_eq_right, mem_zipIdx_iff_getElem?]

theorem wp_tryAdmit (candidate : CompactionCandidate) :
    wp (tryAdmit codec candidate)
      (fun denied world' => Silent world world' ∧ ∀ e, denied = some e → ¬HasReason e)
      (SelectionFails world) w := by
  refine wp_recover ?_
  refine Raises.step (A := True) (fun _ => spared_admitCompactionInput candidate)
    (silent_admitCompactionInput candidate) hs (fun e world' hs' hr => ?_)
    fun _ world' hs' => ⟨hs', by simp⟩
  cases hlimit : isInputLimit e with
  | true => exact ⟨hs', by rintro _ ⟨⟩; exact hr trivial⟩
  | false => exact ⟨hs', hr trivial⟩

theorem wp_trySlice {search : CandidateSearch} (h : search.Sound top world.db.segments)
    (force blocked : Bool) (htop : sourceLevel < top) {sources : List Nat}
    (hplaced : Placed world.db.segments sourceLevel sources) {slice : Nat × Nat}
    (hslice : (sources.drop slice.1).take slice.2 ≠ []) :
    wp (trySlice codec force blocked sourceLevel sources search slice)
      (fun search' world' => Silent world world' ∧ search'.Sound top world.db.segments)
      (SelectionFails world) w := by
  refine wp_cond (fun _ => ⟨hs, h⟩) fun _ => wp_tick hs fun _ ticked hs => ?_
  refine wp_seq (wp_compactionOverlapCandidate hs (fun i hi => hplaced i
    (mem_of_mem_drop (mem_of_mem_take hi))) hslice htop) ?_
  rintro candidate world' ⟨hs, hsuitable⟩
  cases candidate with
  | none => exact ⟨hs, h.found, h.denied⟩
  | some candidate =>
    refine wp_cond (fun _ => ⟨hs, h⟩) fun _ => wp_seq (wp_tryAdmit hs candidate) ?_
    rintro denied admitted ⟨hs, hdenied⟩
    cases denied with
    | none =>
      refine ⟨hs, ?_, h.denied⟩
      rintro _ ⟨⟩
      exact hsuitable candidate rfl
    | some error =>
      refine ⟨hs, h.found, fun e he => ?_⟩
      rcases Option.or_eq_some_iff.mp he with he | ⟨-, he⟩
      · exact h.denied e he
      · exact hdenied e he

theorem wp_tryLevel {search : CandidateSearch} (h : search.Sound top world.db.segments)
    (force : Bool) (htop : sourceLevel < top) :
    wp (tryLevel codec force search sourceLevel)
      (fun search' world' => Silent world world' ∧ search'.Sound top world.db.segments)
      (SelectionFails world) w := by
  refine wp_cond (fun _ => ⟨hs, h⟩) fun _ => wp_tick hs fun _ ticked hs => ?_
  rw [wp_bind, wp_get]
  refine wp_cond (fun _ => ⟨hs, h⟩) fun _ => ?_
  refine wp_foldlM (fun _ (search' : CandidateSearch) world' => Silent world world' ∧
    search'.Sound top world.db.segments) ⟨hs, h⟩ fun _ slice _ _ _ hsplit h' => ?_
  refine wp_trySlice h'.1 h'.2 _ _ htop (fun i hi => ?_) (slice_ne_nil (by rw [hsplit]; simp))
  rw [(perm_insertionSort _ _).mem_iff, hs.db] at hi
  simpa [mem_zipIdx_iff_getElem?] using hi

theorem wp_selectCompactionCandidate (force : Bool) :
    wp (selectCompactionCandidate codec force)
      (fun candidate world' => Silent world world' ∧ ∀ c, candidate = some c →
        c.Suitable world.db.options.compaction.maxLevel world.db.segments)
      (SelectionFails world) w := by
  unfold selectCompactionCandidate
  rw [wp_bind, wp_get, hs.db]
  refine wp_seq (wp_foldlM (fun _ search world' => Silent world world' ∧
    search.Sound world.db.options.compaction.maxLevel world.db.segments) ⟨hs, by simp, by simp⟩
    fun _ level _ _ _ hsplit h => wp_tryLevel h.1 h.2 force (mem_range.mp
      (by rw [hsplit]; simp))) ?_
  rintro search world' ⟨hs, h⟩
  cases hfound : search.found with
  | some candidate =>
    refine ⟨hs, ?_⟩
    rintro _ ⟨⟩
    exact h.found candidate hfound
  | none =>
    cases hdenied : search.denied with
    | some error => exact ⟨hs, h.denied error hdenied⟩
    | none => exact ⟨hs, by simp⟩

end Search

section Replaced

variable {segments compacted : List Segment} {indices : List Nat} {plan : MergePlan} {key : Bytes}
  (hnd : ((chainsOf segments key).map sequence).Nodup)
  (hplan : plan.unselected = unselectedSegments segments indices)
  (hkept : Kept plan key (chainsOf (segmentsAt segments indices) key) (chainsOf compacted key))

include hnd hkept

theorem chainsOf_replaced_nodup :
    ((chainsOf (unselectedSegments segments indices ++ compacted) key).map sequence).Nodup := by
  rw [chainsOf_append, map_append]
  refine List.Nodup.append ?_ ?_ ?_
  · exact hnd.sublist ((unselectedSegments_sublist.map _).flatten.map _)
  · exact (pairwise_map.mpr hkept.increasing).imp fun h => h.ne
  · intro n hn hn'
    obtain ⟨v, hv, rfl⟩ := mem_map.mp hn
    obtain ⟨w, hw, heq⟩ := mem_map.mp hn'
    exact sequence_ne_of_split hnd hv (hkept.subset hw) heq.symm

include hplan in
/-- Reads at a sequence that the plan protects see the same version, or a tombstone
less. -/
theorem stays_replaced (hsafe : plan.retainAllVersions = true ∨ ∃ p ∈ plan.protectedSequences,
      ∀ v ∈ chainsOf segments key, v.sequence ≤ s ↔ v.sequence ≤ p) :
    Stays (!plan.retainAllVersions) s (chainsOf segments key)
      (chainsOf (unselectedSegments segments indices ++ compacted) key) := by
  set others := chainsOf (unselectedSegments segments indices) key
  set before := chainsOf (segmentsAt segments indices) key
  set after := chainsOf compacted key
  have hsub : ∀ v ∈ before, v ∈ chainsOf segments key :=
    fun v hv => mem_chainsOf_split.mpr (Or.inr hv)
  have hinj : ∀ v ∈ before, ∀ w ∈ before, v.sequence = w.sequence → v = w :=
    fun v hv w hw => eq_of_rank_eq hnd (hsub v hv) (hsub w hw)
  have hinj' : ∀ v ∈ after, ∀ w ∈ after, v.sequence = w.sequence → v = w :=
    fun v hv w hw => hinj v (hkept.subset hv) w (hkept.subset hw)
  have hbefore : latest sequence s (chainsOf segments key) =
      newer sequence (latest sequence s others) (latest sequence s before) := by
    refine (IsLatest.eq_latest hnd (IsLatest.congr (fun v => ?_)
      ((isLatest_latest _ s others).append (isLatest_latest _ s before)))).symm
    rw [mem_append]
    exact mem_chainsOf_split.symm
  have hafter : latest sequence s
        (chainsOf (unselectedSegments segments indices ++ compacted) key) =
      newer sequence (latest sequence s others) (latest sequence s after) := by
    refine (IsLatest.eq_latest (chainsOf_replaced_nodup hnd hkept) ?_).symm
    rw [chainsOf_append]
    exact (isLatest_latest _ s others).append (isLatest_latest _ s after)
  rw [Stays, hbefore, hafter]
  cases hall : plan.retainAllVersions with
  | true =>
    left
    have hsame : latest sequence s after = latest sequence s before :=
      ((isLatest_latest _ s after).congr fun v =>
        ⟨fun hv => hkept.subset hv, fun hv => hkept.all hall hv⟩).eq_latest_of_inj hinj
    rw [hsame]
  | false =>
    obtain ⟨p, hp, hps⟩ := hsafe.resolve_left (by simp [hall])
    have hbefore_p : latest sequence p before = latest sequence s before :=
      ((isLatest_latest _ p before).of_no_rank_between
        fun v hv => (hps v (hsub v hv)).symm).eq_latest_of_inj hinj
    have hafter_p : latest sequence p after = latest sequence s after :=
      ((isLatest_latest _ p after).of_no_rank_between
        fun v hv => (hps v (hsub v (hkept.subset hv))).symm).eq_latest_of_inj hinj'
    rcases hkept.seen hall p hp with hsame | ⟨hnil, hshadow, v, hv, hvalue⟩
    · left
      rw [← hafter_p, hsame, hbefore_p]
    · right
      -- the key is dropped, and no other segment has it
      have hothers : others = [] := by
        rw [eq_nil_iff_forall_not_mem]
        intro u hu
        obtain ⟨segment, hsegment, hu⟩ := mem_chainsOf.mp hu
        have hrow : (key, u) ∈ segment.content.rows := mem_chainOf.mp hu
        rw [MergePlan.shadows, hplan, any_eq_false] at hshadow
        have := hshadow segment hsegment
        simp [segment.content.firstKey_le hrow, segment.content.le_lastKey hrow] at this
      have hafter_nil : after = [] := hnil
      rw [hothers, hafter_nil, ← hbefore_p, hv]
      exact ⟨rfl, rfl, v, rfl, hvalue⟩

end Replaced

/-! ### The compaction -/

def compactedDatabase (codec : Codec) (db : Database) (segments : List Segment)
    (next : Manifest) : Database :=
  { db with
    segments := segments
    pointIndex := .new (segments.map (Segment.descriptor codec.toSegmentCodec))
    manifest := next }

/-- A list of segments that may replace those of a database. -/
structure Replacement (codec : Codec) (prune : Bool) (safe : Nat → Prop) (world : World)
    (segments : List Segment) : Prop where
  present : ∀ segment ∈ segments, world.disk.segments.find?
    (codec.sha256 segment.content.rowGroups) = some segment.content
  subset : ∀ key, chainsOf segments key ⊆ world.db.segmentHeld key
  distinct : ∀ key, ((chainsOf segments key).map sequence).Nodup
  stays : ∀ key s,
    safe s ∨ s ∈ world.db.transactionSnapshots.pins ∨ world.db.snapshot ≤ s →
    Stays prune s (world.db.segmentHeld key) (chainsOf segments key)

variable {safe : Nat → Prop}

theorem Replacement.of_grows {world' : World} (h : Replacement codec prune safe world segments)
    (hg : Grows codec world world') : Replacement codec prune safe world' segments := by
  have hdb := hg.db
  refine ⟨fun segment hsegment => hg.segments _ _ (h.present segment hsegment), ?_, h.distinct, ?_⟩
  · rw [hdb]; exact h.subset
  · rw [hdb]; exact h.stays

section Replacement

variable (hinv : Inv codec world) (hr : Replacement codec prune safe world segments)
  (hdurable : next.durableSequence = world.db.manifest.durableSequence)

include hinv hr hdurable

theorem coherent_compactedDatabase :
    (compactedDatabase codec world.db segments next).Coherent codec where
  table := by
    show world.db.memtable.Ordered next.durableSequence
    rw [hdurable]
    exact hinv.coherent.table
  settled := by
    intro key v hv
    show v.sequence ≤ next.durableSequence
    rw [hdurable]
    exact hinv.coherent.settled key v (hr.subset key hv)
  distinct := hr.distinct
  index := rfl

theorem Replacement.stays_held
    (hs : safe s ∨ s ∈ world.db.transactionSnapshots.pins ∨ world.db.snapshot ≤ s) :
    Stays prune s (world.db.held key)
      ((compactedDatabase codec world.db segments next).held key) := by
  have hafter := coherent_compactedDatabase hinv hr hdurable
  have hstays := hr.stays key s hs
  show (compactedDatabase codec world.db segments next).versionAt key s =
      world.db.versionAt key s ∨ prune = true ∧
    (compactedDatabase codec world.db segments next).versionAt key s = none ∧
      ∃ v, world.db.versionAt key s = some v ∧ v.value = none
  cases htable : world.db.memtable.getVersion key s with
  | some v =>
    left
    rw [hinv.coherent.versionAt_of_table htable]
    exact hafter.versionAt_of_table htable
  | none =>
    rw [hinv.coherent.versionAt_of_segments htable (isLatest_latest _ s _),
      hafter.versionAt_of_segments htable (isLatest_latest _ s _)]
    exact hstays

theorem compactedDatabase_upkeep {checked published : World} (hg : Grows codec world checked)
    (hp : Published codec next checked published)
    (hstart : next.walStartSequence = world.db.manifest.walStartSequence)
    (hsegments : next.segments = (segments.map
      (Segment.descriptor codec.toSegmentCodec)).insertionSort descriptorLe) :
    Inv codec (published.setDb (compactedDatabase codec world.db segments next)) ∧
      Maintains prune safe world
        (published.setDb (compactedDatabase codec world.db segments next)) := by
  obtain ⟨frames, hframes⟩ := Option.isSome_iff_exists.mp hinv.opened
  refine ⟨hinv.published hg hp ⟨rfl, rfl, rfl⟩ le_rfl (coherent_compactedDatabase hinv hr hdurable)
    hsegments (hinv.walStart.trans hstart.symm) ?_ hr.present le_rfl (hg.wals _ _ hframes) ?_, ?_⟩
  · show next.walStartSequence = next.durableSequence + 1
    rw [hstart, hdurable]
    exact hinv.walAfter
  · obtain ⟨table, htable, hrest⟩ := hinv.log
    rw [World.logTable, hframes] at htable
    refine ⟨table, ?_, hrest⟩
    rw [← htable, ← hdurable]
    rfl
  · exact
      { options := rfl, owner := rfl, views := rfl, snapshots := rfl, reopen := rfl, head := rfl
        transactions := hp.transactions.trans hg.transactions
        checkpoints := hp.checkpoints.trans hg.checkpoints
        stays := fun key s hs => hr.stays_held hinv hdurable hs }

end Replacement

theorem wp_publishCompacted (hinv : Inv codec world)
    (hr : Replacement codec prune safe world segments) (hleveled : Leveled segments)
    (createdAt : Nat) (failure : Option (CompactionBoundary × FailureMode)) :
    wp (publishCompacted codec createdAt failure segments)
      (fun _ world' => Inv codec world' ∧ Maintains prune safe world world')
      (Fails codec prune safe world) world := by
  have hrefl : Grows codec world world := Std.Refl.refl world
  unfold publishCompacted
  rw [wp_bind, wp_get]
  refine wp_then (wp_successorManifest (by decide)) ?_ ?_
  swap
  · rintro e _ ⟨heq, hreason⟩
    rw [heq]
    refine hinv.fails e _ hrefl fun hcodec => hreason hinv hinv.walStart_le ?_
    have hcoherent : (compactedDatabase codec world.db segments world.db.manifest).Coherent codec :=
      coherent_compactedDatabase hinv hr rfl
    exact accepted_of_coherent hcodec hcoherent hleveled
  rintro next _ ⟨rfl, hvalid, hdurable, hstart, hsegments, -⟩
  refine Raises.seq (fun _ => spared_checkElapsed) (silent_checkElapsed _)
    (fun e w hs => hinv.fails e w hs.grows) fun _ checked hs => ?_
  refine wp_then (wp_publish_valid (hinv.of_grows hs.grows) hvalid _) ?_
    fun e w h => hinv.fails e w (hs.grows.trans h.1) fun _ => h.2
  intro _ published hp
  rw [wp_bind, wp_modifyDb]
  have hdone := compactedDatabase_upkeep hinv hr hdurable hs.grows hp hstart hsegments
  rw [hp.db, hs.db]
  refine Raises.seq (fun _ => spared_injectAt _ _ _) (silent_injectAt _ _ _ _)
    (fun _ _ hs hr => ⟨IsTrans.trans _ _ _ (fun _ => hdone) hs.upkeep hinv, hr⟩) fun _ _ hs => ?_
  exact IsTrans.trans _ _ _ (fun _ => hdone) hs.upkeep hinv

/-- The sequences a caller of a compaction protects. -/
def protects (retainAllVersions : Bool) (protectedSnapshots : List Nat) (s : Nat) : Prop :=
  retainAllVersions = true ∨ s ∈ protectedSnapshots

variable (protectedSnapshots : Option (List Nat))

/-- Whether work with these protected snapshots may drop history; without a list
it keeps all of it. -/
def prunesHistory : Bool := protectedSnapshots.isSome

/-- The snapshots that such work keeps readable. -/
def sparesSnapshot : Nat → Prop :=
  protects protectedSnapshots.isNone (protectedSnapshots.getD [])

theorem prunesHistory_eq : prunesHistory protectedSnapshots = !protectedSnapshots.isNone := by
  cases protectedSnapshots <;> rfl

/-- Reads that must not be affected are reads at a sequence of the plan. -/
theorem exists_protectedSequence {db : Database} (h : db.Coherent codec)
    {protectedSnapshots : List Nat}
    (hs : s ∈ protectedSnapshots ∨ s ∈ db.transactionSnapshots.pins ∨ db.snapshot ≤ s) :
    ∃ p ∈ protectedSequencesOf db protectedSnapshots,
      ∀ v ∈ db.segmentHeld key, v.sequence ≤ s ↔ v.sequence ≤ p := by
  have hdurable : db.manifest.durableSequence ∈ protectedSequencesOf db protectedSnapshots := by
    simp [protectedSequencesOf]
  have hafter : db.manifest.durableSequence ≤ s →
      ∀ v ∈ db.segmentHeld key, v.sequence ≤ s ↔ v.sequence ≤ db.manifest.durableSequence := by
    intro hle v hv
    have := h.settled key v hv
    omega
  rcases hs with hs | hs | hs
  · by_cases hle : s ≤ db.manifest.durableSequence
    · exact ⟨s, by simp [protectedSequencesOf, hs, hle], fun _ _ => Iff.rfl⟩
    · exact ⟨_, hdurable, hafter (by omega)⟩
  · exact ⟨s, by simp [protectedSequencesOf, hs], fun _ _ => Iff.rfl⟩
  · exact ⟨_, hdurable, hafter (h.table.le.trans hs)⟩

/-- The list after a merge: the other segments, and behind them those written for the
selected ones, in the order of their keys. -/
def Regrouped (segments : List Segment) (candidate : CompactionCandidate) (merged : List Segment) :
    Prop :=
  ∃ compacted, merged = unselectedSegments segments candidate.indices ++ compacted ∧
    (∀ segment ∈ compacted, segment.level = candidate.targetLevel) ∧
    (compacted.Pairwise fun a b => a.content.lastKey < b.content.firstKey) ∧
    ∀ key, chainsOf compacted key ⊆ chainsOf (segmentsAt segments candidate.indices) key

theorem wp_mergeSelected (protectedSnapshots : List Nat) (retainAllVersions : Bool)
    (candidate : CompactionCandidate) :
    wp (mergeSelected codec (protectedSequencesOf world.db protectedSnapshots) retainAllVersions
        candidate)
      (fun segments world' => Grows codec world world' ∧
        Regrouped world.db.segments candidate segments ∧ (Inv codec world →
          Replacement codec (!retainAllVersions) (protects retainAllVersions protectedSnapshots)
            world' segments))
      (fun _ world' => Grows codec world world') world := by
  unfold mergeSelected
  rw [wp_bind, wp_get]
  rw [wp_bind, wp_modifyDb]
  have hpending : Grows codec world (world.setDb { world.db with reclamationPending := true }) := by
    constructor <;> simp_all
  refine wp_then wp_mergeCompactionCandidate ?_ fun _ _ hg => hpending.trans hg
  rintro compacted merged ⟨hg, hsound, hkept⟩
  have hmerged : Grows codec world merged := hpending.trans hg
  refine silent_checkElapsed.seq (fun _ _ hs => hmerged.trans hs.grows) fun _ checked hs => ?_
  have hchecked : Grows codec world checked := hmerged.trans hs.grows
  refine ⟨hchecked, ⟨compacted, rfl, hsound.level, hsound.apart,
    fun key => (hkept key).subset⟩, fun hinv => ?_⟩
  have hnd : ∀ key, ((chainsOf world.db.segments key).map sequence).Nodup :=
    hinv.coherent.distinct
  have hdb := hchecked.db
  constructor
  · intro segment hsegment
    rcases mem_append.mp hsegment with hsegment | hsegment
    · exact hchecked.segments _ _
        (hinv.present segment (unselectedSegments_sublist.subset hsegment))
    · rw [hs.disk]
      exact hsound.present segment hsegment
  · rw [hdb]
    intro key v hv
    rw [chainsOf_append] at hv
    rcases mem_append.mp hv with hv | hv
    · exact mem_chainsOf_split.mpr (Or.inl hv)
    · exact mem_chainsOf_split.mpr (Or.inr ((hkept key).subset hv))
  · exact fun key => chainsOf_replaced_nodup (hnd key) (hkept key)
  · rw [hdb]
    intro key s hs
    refine stays_replaced (hnd key) rfl (hkept key) ?_
    cases retainAllVersions with
    | true => exact Or.inl rfl
    | false =>
      refine Or.inr (exists_protectedSequence hinv.coherent (hs.imp_left ?_))
      exact fun h => h.resolve_left (by simp)

theorem Regrouped.leveled {merged : List Segment} {candidate : CompactionCandidate}
    {first last : Bytes} (h : Regrouped segments candidate merged)
    (hclosed : candidate.Closed segments first last) (hleveled : Leveled segments) :
    Leveled merged := by
  obtain ⟨compacted, rfl, hlevel, hordered, hsubset⟩ := h
  refine pairwise_append.mpr ⟨hleveled.sublist unselectedSegments_sublist, ?_, ?_⟩
  · exact hordered.imp fun hlt _ _ => .inl hlt
  · intro a ha b hb heq _
    rcases hclosed.beside hleveled ha (heq.trans (hlevel b hb)) with hbefore | hafter
    · obtain ⟨row, hrow, hfirst⟩ := b.content.exists_firstKey
      obtain ⟨t, ht, hle, -⟩ := exists_taken hsubset hb hrow
      exact .inl (hfirst ▸ (hbefore t ht).trans_le hle)
    · obtain ⟨row, hrow, hlast⟩ := b.content.exists_lastKey
      obtain ⟨t, ht, -, hle⟩ := exists_taken hsubset hb hrow
      exact .inr (hlast ▸ hle.trans_lt (hafter t ht))

theorem spared_writeCompactionPartition (hcodec : codec.Physical) (durable targetLevel : Nat)
    (state : MergeState) : Spared (writeCompactionPartition codec durable targetLevel state) := by
  refine spared_checkElapsed.bind fun _ => raises_get.bind fun world =>
    (spared_check _ _ _).bind fun _ => Raises.bind (raises_ofExcept ?_) fun _ =>
    (spared_writeSegment hcodec _).bind fun _ => raises_pure _
  refine Errs.foldlM (fun _ chain => Errs.unless ?_ ?_) _ _
  · exact not_hasReason_of_kind rfl
  · exact Errs.bind (Errs.foldlM (fun _ version => (spares_error rfl).ite (errs_ok _)) _ _)
      fun _ => errs_ok _

theorem spared_mergeLoop (hcodec : codec.Physical) (plan : MergePlan) (fuel : Nat)
    (cursors : List (List Entry)) (state : MergeState) :
    Spared (mergeLoop codec plan fuel cursors state) := by
  have hobserve : ∀ versions record, Spared (observeRecord versions record) := by
    refine fun versions record => spared_checkElapsed.bind fun _ => ?_
    split
    · exact Raises.unless (not_hasReason_of_kind rfl) (raises_pure _)
    · exact raises_pure _
  have hbuffer : ∀ state key retained, Spared (bufferKey codec plan state key retained) :=
    fun state key retained => Raises.bind (raises_get.bind fun world =>
      (spared_writeCompactionPartition hcodec _ _ _).ite (raises_pure _)) fun _ => raises_pure _
  induction fuel generalizing cursors state with
  | zero => exact raises_pure _
  | succ fuel ih =>
    rw [mergeLoop]
    split
    · exact raises_pure _
    · exact spared_checkElapsed.bind fun _ => Raises.bind (Raises.foldlM hobserve _ _) fun _ =>
        Raises.ite ((hbuffer _ _ _).bind fun _ => ih _ _) (ih _ _)

theorem spared_mergeSelected (hcodec : codec.Physical) (protectedSequences : List Nat)
    (retainAllVersions : Bool) (candidate : CompactionCandidate) :
    Spared (mergeSelected codec protectedSequences retainAllVersions candidate) := by
  refine raises_get.bind fun world => (raises_modify _).bind fun _ => Raises.bind ?_ fun _ =>
    spared_checkElapsed.bind fun _ => raises_pure _
  exact (spared_mergeLoop hcodec _ _ _ _).bind fun _ =>
    (raises_pure _).ite ((spared_writeCompactionPartition hcodec _ _ _).bind fun _ => raises_pure _)

/-- A compaction keeps the reads it was asked to protect; without a candidate it
does nothing. It never fails for the components of the manifest it builds. -/
theorem wp_compactSegmentsInner (hinv : Inv codec world) (protectedSnapshots : List Nat)
    (createdAt : Nat) (failure : Option (CompactionBoundary × FailureMode))
    (force retainAllVersions : Bool) :
    wp (compactSegmentsInner codec protectedSnapshots createdAt failure force retainAllVersions)
      (fun outcome world' => (outcome.isNone → Silent world world') ∧ Inv codec world' ∧
        Maintains (!retainAllVersions) (protects retainAllVersions protectedSnapshots) world world')
      (Fails codec (!retainAllVersions) (protects retainAllVersions protectedSnapshots) world)
      world := by
  have hfail : ∀ e w, Silent world w → _ → Fails codec (!retainAllVersions)
      (protects retainAllVersions protectedSnapshots) world e w :=
    fun e w hs => hinv.fails e w hs.grows
  refine Raises.step (fun _ => spared_ensureWriterReady) silent_ensureWriterReady
    (Std.Refl.refl world) hfail fun _ ready hready => ?_
  refine wp_then (wp_selectCompactionCandidate hready force) ?_
    fun e w h => hfail e w h.1 fun _ => h.2
  rintro candidate selected ⟨hselected, hsuitable⟩
  cases candidate with
  | none => exact ⟨fun _ => hselected, hselected.upkeep hinv⟩
  | some candidate =>
    obtain ⟨first, last, hclosed⟩ := (hsuitable candidate rfl).closed
    refine Raises.step (fun _ => spared_admitCompactionInput candidate)
      (silent_admitCompactionInput candidate) hselected hfail fun _ admitted hadmitted => ?_
    rw [wp_bind, wp_get]
    refine Raises.seq (fun hcodec : codec.Physical => spared_mergeSelected hcodec _ _ _)
      (wp_mergeSelected protectedSnapshots retainAllVersions candidate)
      (fun e w hg => hinv.fails e w (hadmitted.grows.trans hg)) ?_
    rintro segments merged ⟨hg, hregrouped, hr⟩
    have hleveled : Leveled segments := by
      rw [hadmitted.db] at hregrouped
      exact hregrouped.leveled hclosed hinv.leveled
    have hmerged : Grows codec world merged := hadmitted.grows.trans hg
    refine Raises.seq (fun _ => spared_injectAt _ _ _) (silent_injectAt _ _ _ _)
      (fun e w hs => hinv.fails e w (hmerged.trans hs.grows)) fun _ injected hs => ?_
    have hinjected : Grows codec world injected := hmerged.trans hs.grows
    refine wp_then (wp_publishCompacted (hinv.of_grows hinjected)
      ((hr (hinv.of_grows hadmitted.grows)).of_grows hs.grows) hleveled createdAt failure) ?_ ?_
    · exact fun _ _ h => ⟨fun hnone => absurd hnone (by simp), h.1, hinjected.maintains.trans h.2⟩
    · exact fun _ _ h => ⟨⟨h.1.1, hinjected.maintains.trans h.1.2⟩, h.2⟩

theorem upkeep_compactSegmentsInner (protectedSnapshots : List Nat) (createdAt : Nat)
    (failure : Option (CompactionBoundary × FailureMode)) (force retainAllVersions : Bool) :
    Preserves (Upkeep codec (!retainAllVersions) (protects retainAllVersions protectedSnapshots))
      (compactSegmentsInner codec protectedSnapshots createdAt failure force retainAllVersions) :=
  Preserves.of_assuming fun _ hinv => wp_mono
    (wp_compactSegmentsInner hinv protectedSnapshots createdAt failure force retainAllVersions)
    (fun _ _ h => h.2) (fun _ _ h => h.1)

theorem wp_compactInner (hinv : Inv codec world) (protectedSnapshots : List Nat) (createdAt : Nat)
    (failure : Option (CompactionBoundary × FailureMode)) (force retainAllVersions : Bool) :
    wp (compactInner codec protectedSnapshots createdAt failure force retainAllVersions)
      (fun outcome world' => Inv codec world' ∧
        (outcome.isNone → Maintains false (fun _ => True) world world') ∧
        Maintains (!retainAllVersions) (protects retainAllVersions protectedSnapshots) world world')
      (fun _ world' => Inv codec world' ∧
        Maintains (!retainAllVersions) (protects retainAllVersions protectedSnapshots) world world')
      world := by
  refine (upkeep_flushMemtableInner createdAt none).seq (fun _ _ h => h.weaken hinv)
    fun _ flushed h => ?_
  obtain ⟨hinv', hflushed⟩ := h hinv
  refine wp_mono (wp_compactSegmentsInner hinv' _ _ _ _ _) ?_ ?_
  · rintro outcome world' ⟨hnone, hinv'', hmaintains⟩
    refine ⟨hinv'', fun h => ?_, hflushed.weaken.trans hmaintains⟩
    have hg : Grows codec flushed world' := (hnone h).grows
    exact hflushed.trans hg.maintains
  · rintro _ world' ⟨⟨hinv'', hmaintains⟩, -⟩
    exact ⟨hinv'', hflushed.weaken.trans hmaintains⟩

end Rrflow.Lsm

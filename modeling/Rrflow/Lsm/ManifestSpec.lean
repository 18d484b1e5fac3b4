import Rrflow.Lsm.Publication

/-!
What the validation of a manifest accepts.

The scan of the segment list keeps the last key of every level. On a list in the
order of a manifest that is enough to tell whether the ranges of a level overlap.
A list of segments that share no version and whose levels below the first hold
disjoint ranges always passes, and only such a list does.
-/

namespace Rrflow.Lsm

open Checks List SegmentScan

variable {codec : Codec}

variable {durable : Nat} {segment : SegmentDescriptor} {segments : List Segment}

/-! ### The scan -/

theorem SegmentDescriptor.validate_eq_ok {u : Unit} :
    segment.validate = .ok u ↔ segment.firstKey ≤ segment.lastKey ∧
      segment.minimumSequence ≠ 0 ∧ segment.minimumSequence ≤ segment.maximumSequence ∧
      segment.entries ≠ 0 ∧ segment.bytes ≠ 0 := by
  unfold SegmentDescriptor.validate
  split
  next h => simp [not_le.mpr h]
  next hkeys =>
    split
    next h =>
      refine iff_of_false (by simp) fun hall => ?_
      rcases h with h | h
      · exact hall.2.1 h
      · omega
    next hsequences =>
      split
      next h =>
        refine iff_of_false (by simp) fun hall => ?_
        exact h.elim hall.2.2.2.1 hall.2.2.2.2
      next hsizes =>
        refine iff_of_true rfl ⟨not_lt.mp hkeys, ?_, ?_, ?_, ?_⟩ <;> omega

structure SegmentScan.Of (seen : List SegmentDescriptor) (scan : SegmentScan) : Prop where
  identities : ∀ id, id ∈ scan.identities ↔ id ∈ seen.map SegmentDescriptor.id
  /-- The last key of a level is the greatest. -/
  greatest : ∀ level, level ≠ 0 → ∀ key, (scan.levelLastKeys.find? level).any (key ≤ ·) = true ↔
    ∃ segment ∈ seen, segment.level = level ∧ key ≤ segment.lastKey

/-- A segment list in order: every segment is well formed, none appears twice, and below the
first level each range ends before the next one begins. -/
structure Accepted (durable : Nat) (segments : List SegmentDescriptor) : Prop where
  each : ∀ segment ∈ segments, segment.validate = .ok () ∧ segment.maximumSequence ≤ durable
  distinct : (segments.map SegmentDescriptor.id).Nodup
  ordered : segments.Pairwise fun a b => a.level = b.level → a.level ≠ 0 → a.lastKey < b.firstKey

/-- The check of one segment against those before it. -/
def FitsBehind (durable : Nat) (seen : List SegmentDescriptor) (segment : SegmentDescriptor) : Prop :=
  segment.validate = .ok () ∧ segment.maximumSequence ≤ durable ∧
    segment.id ∉ seen.map SegmentDescriptor.id ∧
    (segment.level ≠ 0 → ∀ other ∈ seen, other.level = segment.level →
      other.lastKey < segment.firstKey)

def SegmentScan.push (scan : SegmentScan) (segment : SegmentDescriptor) : SegmentScan where
  identities := segment.id :: scan.identities
  levelLastKeys :=
    if segment.level ≠ 0 then scan.levelLastKeys.insert segment.level segment.lastKey
    else scan.levelLastKeys

theorem SegmentScan.step_eq_ok {scan scan' : SegmentScan} :
    scan.step durable segment = .ok scan' ↔
      (segment.validate = .ok () ∧ segment.id ∉ scan.identities ∧
        segment.maximumSequence ≤ durable ∧ (segment.level ≠ 0 →
          ¬(scan.levelLastKeys.find? segment.level).any (segment.firstKey ≤ ·) = true)) ∧
      scan' = scan.push segment := by
  simp only [step, unless_eq_ok, bind_eq_ok, gt_iff_lt, not_lt]
  by_cases hlevel : segment.level = 0
  · simp [hlevel, SegmentScan.push, and_assoc, @eq_comm _ scan', pure, Except.pure,
      Unique.exists_iff]
  · simp only [ne_eq, hlevel, not_false_eq_true, if_true, unless_eq_ok]
    simp [hlevel, SegmentScan.push, and_assoc, @eq_comm _ scan', pure, Except.pure,
      Unique.exists_iff]

theorem SegmentScan.Of.push {seen : List SegmentDescriptor} {scan : SegmentScan} (h : scan.Of seen)
    (hbefore : segment.level ≠ 0 → ∀ other ∈ seen, other.level = segment.level →
      other.lastKey ≤ segment.lastKey) : (scan.push segment).Of (seen ++ [segment]) where
  identities := by
    intro id
    rw [SegmentScan.push, mem_cons, h.identities]
    simp [or_comm]
  greatest := by
    intro level hlevel key
    have hold := h.greatest level hlevel key
    simp only [SegmentScan.push, mem_append, mem_singleton, or_and_right, exists_or, exists_eq_left]
    by_cases hsame : segment.level = level
    · subst hsame
      rw [if_pos hlevel, SortedMap.find?_insert_self, Option.any_some, decide_eq_true_eq]
      constructor
      · exact fun hle => .inr ⟨rfl, hle⟩
      · rintro (⟨other, hother, heq, hle⟩ | ⟨-, hle⟩)
        · exact hle.trans (hbefore hlevel other hother heq)
        · exact hle
    · have hfind : (if segment.level ≠ 0 then
          scan.levelLastKeys.insert segment.level segment.lastKey
          else scan.levelLastKeys).find? level = scan.levelLastKeys.find? level := by
        split
        · exact SortedMap.find?_insert_of_ne _ _ (Ne.symm hsame)
        · rfl
      rw [hfind, hold]
      simp [hsame]

theorem accepted_append {seen : List SegmentDescriptor} :
    Accepted durable (seen ++ [segment]) ↔
      Accepted durable seen ∧ FitsBehind durable seen segment := by
  constructor
  · rintro ⟨heach, hdistinct, hordered⟩
    rw [map_append, nodup_append] at hdistinct
    rw [pairwise_append] at hordered
    refine ⟨⟨fun other hother => heach other (by simp [hother]), hdistinct.1, hordered.1⟩,
      (heach segment (by simp)).1, (heach segment (by simp)).2, ?_, ?_⟩
    · exact fun hmem => hdistinct.2.2 _ hmem _ (by simp) rfl
    · exact fun hlevel other hother heq =>
        hordered.2.2 other hother segment (by simp) heq (heq ▸ hlevel)
  · rintro ⟨⟨heach, hdistinct, hordered⟩, hvalid, hdurable, hid, hlast⟩
    refine ⟨?_, ?_, ?_⟩
    · intro other hother
      rcases mem_append.mp hother with hother | hother
      · exact heach other hother
      · rw [mem_singleton.mp hother]
        exact ⟨hvalid, hdurable⟩
    · rw [map_append, nodup_append]
      refine ⟨hdistinct, by simp, fun a ha b hb => ?_⟩
      rw [map_singleton, mem_singleton] at hb
      rintro rfl
      exact hid (hb ▸ ha)
    · rw [pairwise_append]
      refine ⟨hordered, pairwise_singleton _ _, fun a ha b hb heq hne => ?_⟩
      rw [mem_singleton.mp hb] at heq ⊢
      exact hlast (heq ▸ hne) a ha heq

theorem foldlM_step_eq_ok {segments : List SegmentDescriptor} :
    (∀ scan, segments.foldlM (step durable) {} = .ok scan →
      Accepted durable segments ∧ scan.Of segments) ∧
    (Accepted durable segments → ∃ scan, segments.foldlM (step durable) {} = .ok scan) := by
  induction segments using List.reverseRecOn with
  | nil =>
    refine ⟨fun scan h => ?_, fun _ => ⟨{}, rfl⟩⟩
    cases h
    exact ⟨⟨by simp, by simp, List.Pairwise.nil⟩, by simp, by simp⟩
  | append_singleton seen segment ih =>
    -- the check of one segment says that it fits behind those before it
    have hfits : ∀ scan : SegmentScan, scan.Of seen → Accepted durable seen →
        ((∃ scan', scan.step durable segment = .ok scan') ↔ FitsBehind durable seen segment) := by
      intro scan hof haccepted
      simp only [step_eq_ok, exists_and_left, exists_eq, and_true, FitsBehind, hof.identities]
      have hlast : (segment.level ≠ 0 →
          ¬(scan.levelLastKeys.find? segment.level).any (segment.firstKey ≤ ·) = true) ↔
          (segment.level ≠ 0 → ∀ other ∈ seen, other.level = segment.level →
            other.lastKey < segment.firstKey) := by
        refine forall_congr' fun hlevel => ?_
        rw [hof.greatest _ hlevel]
        simp only [not_exists, not_and, not_le]
      rw [hlast]
      tauto
    have hpush : ∀ scan : SegmentScan, scan.Of seen → FitsBehind durable seen segment →
        (scan.push segment).Of (seen ++ [segment]) := by
      intro scan hof hfit
      have hrange := (SegmentDescriptor.validate_eq_ok.mp hfit.1).1
      exact hof.push fun hlevel other hother heq =>
        ((hfit.2.2.2 hlevel other hother heq).trans_le hrange).le
    rw [foldlM_append]
    constructor
    · intro scan h
      obtain ⟨before, hbefore, hlast⟩ := Checks.bind_eq_ok.mp h
      obtain ⟨haccepted, hof⟩ := ih.1 before hbefore
      obtain ⟨after, hstep, hafter⟩ := Checks.bind_eq_ok.mp hlast
      cases hafter
      have hfit := (hfits before hof haccepted).mp ⟨_, hstep⟩
      refine ⟨accepted_append.mpr ⟨haccepted, hfit⟩, ?_⟩
      rw [(step_eq_ok.mp hstep).2]
      exact hpush before hof hfit
    · intro haccepted
      obtain ⟨hseen, hfit⟩ := accepted_append.mp haccepted
      obtain ⟨before, hbefore⟩ := ih.2 hseen
      obtain ⟨after, hstep⟩ := (hfits before (ih.1 before hbefore).2 hseen).mpr hfit
      exact ⟨after, Checks.bind_eq_ok.mpr ⟨before, hbefore,
        Checks.bind_eq_ok.mpr ⟨after, hstep, rfl⟩⟩⟩

theorem Manifest.validateComponents_eq_ok {manifest : Manifest} {u : Unit} :
    manifest.validateComponents = .ok u ↔
      manifest.generation ≠ 0 ∧
      manifest.walStartSequence ≤ saturatingAdd manifest.durableSequence 1 ∧
      ¬(manifest.generation = 1 ∧ manifest.parent.isSome = true) ∧
      ¬(manifest.generation > 1 ∧ manifest.parent.isNone = true) ∧
      Accepted manifest.durableSequence manifest.segments := by
  have hscan : (∃ scan, manifest.segments.foldlM (step manifest.durableSequence) {} =
      .ok scan) ↔ Accepted manifest.durableSequence manifest.segments :=
    ⟨fun ⟨scan, h⟩ => (foldlM_step_eq_ok.1 scan h).1, foldlM_step_eq_ok.2⟩
  rw [← hscan]
  simp only [Manifest.validateComponents, unless_eq_ok, bind_eq_ok, pure, Except.pure, and_true,
    not_lt, ne_eq, gt_iff_lt]

/-! ### Segments that share no version -/

/-- One segment ends before the other begins. -/
def Segment.Apart (a b : Segment) : Prop :=
  a.content.lastKey < b.content.firstKey ∨ b.content.lastKey < a.content.firstKey

theorem Segment.Apart.symm {a b : Segment} (h : a.Apart b) : b.Apart a := Or.symm h

/-- The segments of a level below the first have disjoint key ranges. -/
def Leveled (segments : List Segment) : Prop :=
  segments.Pairwise fun a b => a.level = b.level → a.level ≠ 0 → a.Apart b

theorem SegmentContent.firstKey_le_lastKey (content : SegmentContent) :
    content.firstKey ≤ content.lastKey := by
  obtain ⟨row, hrow⟩ := exists_mem_of_ne_nil _ content.rows_ne_nil
  exact (content.firstKey_le hrow).trans (content.le_lastKey hrow)

theorem SegmentContent.minimumSequence_ne_zero (content : SegmentContent) :
    content.minimumSequence ≠ 0 := by
  have hfold : ∀ (l : List Entry) (m : Nat), (∀ row ∈ l, 0 < row.2.sequence) → 0 < m →
      0 < l.foldl (fun m r => min m r.2.sequence) m := by
    intro l
    induction l with
    | nil => exact fun m _ hm => hm
    | cons r l ih =>
      intro m hl hm
      exact ih _ (fun row hrow => hl row (mem_cons_of_mem _ hrow)) (lt_min hm (hl r mem_cons_self))
  exact (hfold _ _ content.wellFormed.positive (by decide)).ne'

theorem Segment.validate_descriptor {segment : Segment}
    (hbytes : codec.bytes segment.content.rowGroups ≠ 0) :
    (segment.descriptor codec.toSegmentCodec).validate = .ok () := by
  rw [SegmentDescriptor.validate_eq_ok]
  obtain ⟨row, hrow⟩ := exists_mem_of_ne_nil _ segment.content.rows_ne_nil
  have hmin := segment.content.minimumSequence_le hrow
  have hmax := segment.content.le_maximumSequence hrow
  exact ⟨segment.content.firstKey_le_lastKey, segment.content.minimumSequence_ne_zero,
    hmin.trans hmax, (length_pos_of_mem hrow).ne', hbytes⟩

/-- Segments without a common version have different contents. -/
theorem nodup_ids (h : ∀ key, ((chainsOf segments key).map VersionedValue.sequence).Nodup) :
    ((segments.map (Segment.descriptor codec.toSegmentCodec)).map SegmentDescriptor.id).Nodup := by
  rw [List.Nodup, map_map, pairwise_map, pairwise_iff_getElem]
  intro i j hi hj hij heq
  have hcontent : segments[i].content = segments[j].content := by
    have hgroups := codec.sha256_injective heq
    cases hci : segments[i].content
    cases hcj : segments[j].content
    simp only [hci, hcj] at hgroups
    simp [hgroups]
  -- a common row would be a common version
  obtain ⟨⟨key, v⟩, hrow⟩ := exists_mem_of_ne_nil _ segments[i].content.rows_ne_nil
  have hkey := h key
  rw [chainsOf, map_flatten, map_map] at hkey
  have hdisjoint := disjoint_of_nodup_flatten hkey (i := i) (j := j)
    (by rw [getElem?_map, getElem?_eq_getElem hi]; rfl)
    (by rw [getElem?_map, getElem?_eq_getElem hj]; rfl) hij.ne
  have hv : v ∈ segments[i].content.chain key := mem_chainOf.mpr hrow
  have hv' : v ∈ segments[j].content.chain key := hcontent ▸ hv
  exact hdisjoint (mem_map_of_mem hv) (mem_map_of_mem hv')

/-- The ranges of two descriptions of one level below the first are disjoint. -/
def SegmentDescriptor.Apart (a b : SegmentDescriptor) : Prop :=
  a.level = b.level → a.level ≠ 0 → a.lastKey < b.firstKey ∨ b.lastKey < a.firstKey

theorem SegmentDescriptor.Apart.symm {a b : SegmentDescriptor} (h : a.Apart b) : b.Apart a :=
  fun heq hne => (h heq.symm (heq ▸ hne)).symm

theorem pairwise_apart_map :
    (segments.map (Segment.descriptor codec.toSegmentCodec)).Pairwise SegmentDescriptor.Apart ↔
      Leveled segments := by
  rw [pairwise_map]
  rfl

/-- Well-formed descriptions that are apart are accepted once they are sorted. -/
theorem accepted_insertionSort {segments : List SegmentDescriptor}
    (heach : ∀ segment ∈ segments, segment.validate = .ok () ∧ segment.maximumSequence ≤ durable)
    (hdistinct : (segments.map SegmentDescriptor.id).Nodup)
    (hapart : segments.Pairwise SegmentDescriptor.Apart) :
    Accepted durable (segments.insertionSort descriptorLe) := by
  have hperm := perm_insertionSort descriptorLe segments
  have heach' : ∀ segment ∈ segments.insertionSort descriptorLe,
      segment.validate = .ok () ∧ segment.maximumSequence ≤ durable :=
    fun segment hsegment => heach segment (hperm.mem_iff.mp hsegment)
  refine ⟨heach', (hperm.map _).nodup_iff.mpr hdistinct, ?_⟩
  have hsorted := pairwise_insertionSort descriptorLe segments
  have hapart' := (hperm.pairwise_iff fun h => SegmentDescriptor.Apart.symm h).mpr hapart
  refine (hsorted.and hapart').imp_of_mem ?_
  rintro a b - hb ⟨hle, hab⟩ heq hne
  have hrange := (SegmentDescriptor.validate_eq_ok.mp (heach' b hb).1).1
  have hfirst : a.firstKey ≤ b.firstKey := by
    rcases hle with hlt | ⟨-, hlt | ⟨hkey, -⟩⟩
    · omega
    · exact hlt.le
    · exact hkey.le
  rcases hab heq hne with hlt | hlt
  · exact hlt
  · exact absurd (hrange.trans_lt hlt) (not_lt.mpr hfirst)

theorem Accepted.insertionSort {segments : List SegmentDescriptor} (h : Accepted durable segments) :
    Accepted durable (segments.insertionSort descriptorLe) :=
  accepted_insertionSort h.each h.distinct (h.ordered.imp fun hlt heq hne => .inl (hlt heq hne))

/-- Segments that share no version and are leveled make a valid manifest, in whatever order they
are listed. -/
theorem accepted_of_leveled (hbytes : ∀ groups, codec.bytes groups ≠ 0)
    (hsettled : ∀ key, ∀ v ∈ chainsOf segments key, v.sequence ≤ durable)
    (hdistinct : ∀ key, ((chainsOf segments key).map VersionedValue.sequence).Nodup)
    (hleveled : Leveled segments) :
    Accepted durable ((segments.map (Segment.descriptor codec.toSegmentCodec)).insertionSort
      descriptorLe) := by
  refine accepted_insertionSort ?_ (nodup_ids hdistinct) (pairwise_apart_map.mpr hleveled)
  intro d hd
  obtain ⟨segment, hsegment, rfl⟩ := mem_map.mp hd
  refine ⟨Segment.validate_descriptor (hbytes _), ?_⟩
  refine segment.content.maximumSequence_le fun row hrow => ?_
  exact hsettled row.1 row.2 (mem_chainsOf.mpr ⟨segment, hsegment, mem_chainOf.mpr hrow⟩)

theorem leveled_of_accepted
    (h : Accepted durable ((segments.map (Segment.descriptor codec.toSegmentCodec)).insertionSort
      descriptorLe)) : Leveled segments :=
  pairwise_apart_map.mp (((perm_insertionSort descriptorLe _).pairwise_iff
    fun h => SegmentDescriptor.Apart.symm h).mp
    (h.ordered.imp fun hlt heq hne => .inl (hlt heq hne)))

end Rrflow.Lsm

import Rrflow.Lsm.State

/-!
The point read.

It looks in the mutable table first and then in the segments that the point index
yields. It is specified by `Database.held`, the versions of a key that are present in
any run, under the condition `Coherent` that the runs fit together: the table is newer
than every segment, and no sequence occurs twice.
-/

namespace Rrflow.Lsm

open Latest List VersionedValue

/-- Best version found so far by a point read; no ordinal stands for the
greatest one. -/
structure PointSelection where
  bestSequence : Nat := 0
  bestOrdinal : Option Nat := none
  selected : Option (Segment × SelectedVersion) := none

variable (segments : List Segment)

/-- The closure of a point read, called for each candidate segment. -/
def PointSelection.visit (key : Bytes) (readSequence : Nat) (selection : PointSelection)
    (ordinal : Nat) : PointSelection :=
  match segments[ordinal]? with
  | none => selection
  | some segment =>
    match segment.content.selectVersion key readSequence with
    | none => selection
    | some version =>
      if version.sequence > selection.bestSequence
          ∨ (version.sequence = selection.bestSequence
            ∧ selection.bestOrdinal.all (fun best => ordinal < best)) then
        { bestSequence := version.sequence
          bestOrdinal := some ordinal
          selected := some (segment, version) }
      else selection

def selectedValue (selected : Segment × SelectedVersion) : Option Bytes :=
  selected.1.content.valueAt selected.2.rowGroup selected.2.row

variable {snapshot : Nat} {key : Bytes}

namespace Database

def get (codec : Codec) (db : Database) (key : Bytes) (snapshot : Nat) : Option Bytes :=
  match db.memtable.getVersion key snapshot with
  | some version => version.value
  | none =>
    ((db.pointIndex.visit (db.descriptors codec) key).foldl
      (PointSelection.visit db.segments key snapshot) {}).selected.bind selectedValue

/-! ### The versions a database holds -/

/-- The versions of a key in each run: the mutable table, then the segments. -/
def runs (db : Database) (key : Bytes) : List (List VersionedValue) :=
  db.memtable.chain key :: db.segments.map (fun segment => segment.content.chain key)

/-- All versions of a key that are physically present. -/
def held (db : Database) (key : Bytes) : List VersionedValue := (db.runs key).flatten

def segmentHeld (db : Database) (key : Bytes) : List VersionedValue :=
  (db.segments.map (fun segment => segment.content.chain key)).flatten

theorem held_eq (db : Database) (key : Bytes) :
    db.held key = db.memtable.chain key ++ db.segmentHeld key := rfl

theorem mem_segmentHeld {db : Database} {v : VersionedValue} :
    v ∈ db.segmentHeld key ↔ ∃ segment ∈ db.segments, v ∈ segment.content.chain key := by
  simp [segmentHeld, mem_flatten]

def versionAt (db : Database) (key : Bytes) (snapshot : Nat) : Option VersionedValue :=
  latest sequence snapshot (db.held key)

def valueAt (db : Database) (key : Bytes) (snapshot : Nat) : Option Bytes :=
  (db.versionAt key snapshot).bind value

/-- The runs of a database fit together. -/
structure Coherent (codec : Codec) (db : Database) : Prop where
  table : db.memtable.Ordered db.manifest.durableSequence
  /-- The segments hold nothing after the durable sequence. -/
  settled : ∀ key, ∀ v ∈ db.segmentHeld key, v.sequence ≤ db.manifest.durableSequence
  distinct : ∀ key, ((db.segmentHeld key).map sequence).Nodup
  index : db.pointIndex = .new (db.descriptors codec)

namespace Coherent

variable {codec : Codec} {db : Database}

theorem table_after_segments (h : db.Coherent codec) {v w : VersionedValue}
    (hv : v ∈ db.memtable.chain key) (hw : w ∈ db.segmentHeld key) : w.sequence < v.sequence :=
  (h.settled key w hw).trans_lt (h.table.within key v hv).1

theorem nodup_held (h : db.Coherent codec) (key : Bytes) : ((db.held key).map sequence).Nodup := by
  rw [held_eq, map_append]
  refine List.Nodup.append (h.table.nodup_sequences key) (h.distinct key) ?_
  intro n hn hn'
  obtain ⟨v, hv, rfl⟩ := mem_map.mp hn
  obtain ⟨w, hw, heq⟩ := mem_map.mp hn'
  exact absurd heq (h.table_after_segments hv hw).ne

theorem versionAt_of_table (h : db.Coherent codec) {v : VersionedValue}
    (hv : db.memtable.getVersion key snapshot = some v) : db.versionAt key snapshot = some v := by
  have htable := h.table.isLatest_getVersion key snapshot
  rw [hv] at htable
  have hheld : IsLatest sequence snapshot (db.held key) (some v) :=
    htable.append_left fun w hw _ => (h.table_after_segments htable.1 hw).le
  exact (hheld.eq_latest (h.nodup_held key)).symm

theorem versionAt_of_segments (h : db.Coherent codec) {o : Option VersionedValue}
    (hnone : db.memtable.getVersion key snapshot = none)
    (ho : IsLatest sequence snapshot (db.segmentHeld key) o) : db.versionAt key snapshot = o := by
  have htable := h.table.isLatest_getVersion key snapshot
  rw [hnone] at htable
  exact ((htable.of_none_part ho).eq_latest (h.nodup_held key)).symm

end Coherent

end Database

/-! ### Point reads -/

def versionOf (selected : Segment × SelectedVersion) : VersionedValue :=
  ⟨selected.2.sequence, selectedValue selected⟩

theorem getVersion_eq_versionOf (segment : Segment) (key : Bytes) (snapshot : Nat) :
    segment.content.getVersion key snapshot =
      (segment.content.selectVersion key snapshot).map (fun version => versionOf (segment, version)) := by
  unfold SegmentContent.getVersion
  cases segment.content.selectVersion key snapshot <;> rfl

def Selects (snapshot : Nat) (seen : List VersionedValue)
    (selected : Option (Segment × SelectedVersion)) : Prop :=
  IsLatest sequence snapshot seen (selected.map versionOf)

section Selection

variable {snapshot : Nat} {seen : List VersionedValue} {segment : Segment} {key : Bytes}
  {selected : Option (Segment × SelectedVersion)}

theorem Selects.skip (h : Selects snapshot seen selected)
    (hnone : segment.content.selectVersion key snapshot = none) :
    Selects snapshot (seen ++ segment.content.chain key) selected := by
  have hseg := segment.content.isLatest_getVersion key snapshot
  rw [getVersion_eq_versionOf, hnone, Option.map_none] at hseg
  exact h.append_later hseg

theorem Selects.replace (h : Selects snapshot seen selected) {version : SelectedVersion}
    (hsome : segment.content.selectVersion key snapshot = some version)
    (hle : ∀ current, selected = some current → current.2.sequence ≤ version.sequence) :
    Selects snapshot (seen ++ segment.content.chain key) (some (segment, version)) := by
  have hseg := segment.content.isLatest_getVersion key snapshot
  rw [getVersion_eq_versionOf, hsome, Option.map_some] at hseg
  cases selected with
  | none => exact IsLatest.of_none_part h hseg
  | some current => exact hseg.append_right fun w hw hws => (h.2.2 w hw hws).trans (hle current rfl)

theorem Selects.keep {current : Segment × SelectedVersion}
    (h : Selects snapshot seen (some current)) {version : SelectedVersion}
    (hsome : segment.content.selectVersion key snapshot = some version)
    (hle : version.sequence ≤ current.2.sequence) :
    Selects snapshot (seen ++ segment.content.chain key) (some current) := by
  have hseg := segment.content.isLatest_getVersion key snapshot
  rw [getVersion_eq_versionOf, hsome, Option.map_some] at hseg
  have hboth := IsLatest.append h hseg
  have hnot : ¬(versionOf current).sequence < (versionOf (segment, version)).sequence :=
    not_lt.mpr hle
  rwa [Option.map_some, newer, if_neg hnot] at hboth

end Selection

/-- What a point read knows after visiting the segments `seen` comes from. -/
structure PointSelection.Knows (snapshot : Nat) (seen : List VersionedValue)
    (selection : PointSelection) : Prop where
  selects : Selects snapshot seen selection.selected
  fresh : selection.selected = none → selection.bestOrdinal = none
  best : selection.bestSequence = selection.selected.elim 0 (fun selected => selected.2.sequence)

theorem PointSelection.knows_visit (key : Bytes) {seen : List VersionedValue}
    {selection : PointSelection} (h : selection.Knows snapshot seen) (ordinal : Nat) :
    (PointSelection.visit segments key snapshot selection ordinal).Knows snapshot
      (seen ++ (segments[ordinal]?).elim [] (fun segment => segment.content.chain key)) := by
  unfold PointSelection.visit
  cases hget : segments[ordinal]? with
  | none => simpa using h
  | some segment =>
    rw [Option.elim_some]
    dsimp only
    cases hselect : segment.content.selectVersion key snapshot with
    | none => exact ⟨h.selects.skip hselect, h.fresh, h.best⟩
    | some version =>
      dsimp only
      have hbest := h.best
      split
      · rename_i hcond
        refine ⟨h.selects.replace hselect ?_, fun hnone => absurd hnone (by simp), rfl⟩
        intro current hcurrent
        rw [hcurrent, Option.elim_some] at hbest
        omega
      · rename_i hcond
        cases hcurrent : selection.selected with
        | none =>
          -- the first version found always passes the comparison
          rw [hcurrent, Option.elim_none] at hbest
          rw [h.fresh hcurrent, hbest] at hcond
          simp only [Option.all_none, and_true] at hcond
          omega
        | some current =>
          rw [hcurrent, Option.elim_some] at hbest
          have hsel := h.selects
          rw [hcurrent] at hsel
          refine ⟨?_, fun hnone => absurd (hcurrent.symm.trans hnone) (by simp), h.best⟩
          rw [hcurrent]
          exact hsel.keep hselect (by omega)

theorem PointSelection.knows_foldl (key : Bytes) (ordinals : List Nat) {seen : List VersionedValue}
    {selection : PointSelection} (h : selection.Knows snapshot seen) :
    (ordinals.foldl (PointSelection.visit segments key snapshot) selection).Knows snapshot
      (seen ++ (ordinals.map (fun ordinal => (segments[ordinal]?).elim []
        (fun segment => segment.content.chain key))).flatten) := by
  induction ordinals generalizing seen selection with
  | nil => simpa using h
  | cons ordinal rest ih =>
    have := ih (PointSelection.knows_visit segments key h ordinal)
    simpa [append_assoc] using this

namespace Database

variable {codec : Codec} {db : Database}

theorem Coherent.mem_candidates (h : db.Coherent codec) (key : Bytes) (v : VersionedValue) :
    v ∈ ((db.pointIndex.visit (db.descriptors codec) key).map
        (fun ordinal => (db.segments[ordinal]?).elim []
          (fun segment => segment.content.chain key))).flatten ↔ v ∈ db.segmentHeld key := by
  rw [h.index, mem_flatten, mem_segmentHeld]
  constructor
  · rintro ⟨part, hpart, hv⟩
    obtain ⟨ordinal, -, rfl⟩ := mem_map.mp hpart
    cases hget : db.segments[ordinal]? with
    | none => simp [hget] at hv
    | some segment =>
      rw [hget, Option.elim_some] at hv
      exact ⟨segment, mem_of_getElem? hget, hv⟩
  · rintro ⟨segment, hsegment, hv⟩
    obtain ⟨ordinal, hget⟩ := mem_iff_getElem?.mp hsegment
    refine ⟨segment.content.chain key, mem_map.mpr ⟨ordinal, ?_, by rw [hget]; rfl⟩, hv⟩
    have hrow : (key, v) ∈ segment.content.rows := mem_chainOf.mp hv
    refine PointIndex.mem_visit_new.mpr
      ⟨segment.descriptor codec.toSegmentCodec, ?_, segment.content.firstKey_le hrow,
        segment.content.le_lastKey hrow⟩
    rw [descriptors, getElem?_map, hget]
    rfl

/-- A point read returns the value of the latest version at the snapshot. -/
theorem Coherent.get_eq (h : db.Coherent codec) (key : Bytes) (snapshot : Nat) :
    db.get codec key snapshot = db.valueAt key snapshot := by
  unfold get valueAt
  cases htable : db.memtable.getVersion key snapshot with
  | some version => rw [h.versionAt_of_table htable, Option.bind_some]
  | none =>
    have hstart : ({} : PointSelection).Knows snapshot [] := ⟨isLatest_nil _ _, fun _ => rfl, rfl⟩
    have hend := PointSelection.knows_foldl db.segments key
      (db.pointIndex.visit (db.descriptors codec) key) hstart
    rw [nil_append] at hend
    have hlatest := IsLatest.congr (h.mem_candidates key) hend.selects
    rw [h.versionAt_of_segments htable hlatest]
    cases ((db.pointIndex.visit (db.descriptors codec) key).foldl
      (PointSelection.visit db.segments key snapshot) {}).selected <;> rfl

end Database

end Rrflow.Lsm

import Rrflow.Store.Versions

/-!
Read stamps and the log.

A stamp names a prefix of the log by its length, its last digest, its root and the
revision of its schema. In a whole state exactly the stamps of the prefixes of the log
pass the check, as long as the catalogue of the scope is unchanged.
-/

namespace Rrflow.Store

open Kernel Checks List RuntimeMutation

variable {externals : Externals}

variable {state : State} {log : List RuntimeChange} {read : ReadStamp} {scope : ScopeId}

def schemaOf (log : List RuntimeChange) (scope : ScopeId) : Option RuntimeSchemaRegistry :=
  ((log.filter (·.scope = scope)).filterMap (·.mutation.schema?)).getLast?

theorem schemaOf_append_singleton (log : List RuntimeChange) (change : RuntimeChange)
    (scope : ScopeId) :
    schemaOf (log ++ [change]) scope =
      if change.scope = scope then change.mutation.schema?.or (schemaOf log scope)
      else schemaOf log scope := by
  unfold schemaOf
  by_cases hscope : change.scope = scope
  · cases hschema : change.mutation.schema? <;> simp [hscope, hschema, filter_append]
  · simp [hscope, filter_append]

theorem mem_of_schemaOf {schema : RuntimeSchemaRegistry} (h : schemaOf log scope = some schema) :
    ∃ change ∈ log, change.mutation = .schema schema := by
  have hmem := mem_of_getLast? h
  simp only [mem_filterMap, mem_filter, decide_eq_true_eq] at hmem
  obtain ⟨change, ⟨hlog, -⟩, hmutation⟩ := hmem
  refine ⟨change, hlog, ?_⟩
  cases hkind : change.mutation with
  | schema registry => simpa [hkind, schema?] using hmutation
  | _ => simp [hkind, schema?] at hmutation

theorem schemas_replay (log : List RuntimeChange) (scope : ScopeId) :
    (replay log).schemas.find? scope = schemaOf log scope := by
  induction log using List.reverseRecOn with
  | nil => rfl
  | append_singleton log change ih =>
    rw [replay_append, foldl_cons, foldl_nil, LogSpaces.schemas_place, schemaOf_append_singleton]
    cases hmutation : change.mutation with
    | schema registry =>
      rw [SortedMap.find?_insert, ih]
      by_cases hscope : change.scope = scope
      · simp [hscope, schema?]
      · simp [hscope, Ne.symm hscope]
    | _ => simp [schema?, ih]

theorem getLast?_of_forall_cursor_le (hsorted : log.Pairwise fun a b => a.cursor < b.cursor)
    {change : RuntimeChange} (hmem : change ∈ log)
    (hmax : ∀ other ∈ log, other.cursor ≤ change.cursor) :
    log.getLast? = some change := by
  induction log using List.reverseRecOn with
  | nil => cases hmem
  | append_singleton log last _ =>
    rw [getLast?_concat]
    rcases mem_append.mp hmem with hmem | hmem
    · have hlt := (pairwise_append.mp hsorted).2.2 change hmem last (by simp)
      exact absurd (hmax last (by simp)) hlt.not_ge
    · rw [mem_singleton.mp hmem]

theorem getLast?_filterMap {α β : Type} (f : α → Option β) (l : List α) :
    (l.filterMap f).getLast? = (l.filter fun a => (f a).isSome).getLast?.bind f := by
  induction l using List.reverseRecOn with
  | nil => rfl
  | append_singleton l last ih =>
    cases hlast : f last with
    | none => simp [hlast, filter_append, ih]
    | some b => simp [hlast, filter_append]

theorem Chain.take_eq_filter {digests : Digests} {cursor : Nat} {previous : Option String}
    (h : Chain digests cursor previous log) (k : Nat) :
    log.take k = log.filter (·.cursor ≤ cursor + k) := by
  induction log generalizing cursor previous k with
  | nil => simp
  | cons change rest ih =>
    have hcursor := h.1.1
    cases k with
    | zero =>
      rw [take_zero, eq_comm, filter_eq_nil_iff]
      intro other hmem
      have := h.cursor_bounds hmem
      simp only [decide_eq_true_eq]
      omega
    | succ k =>
      rw [take_succ_cons, ih h.2 k, filter_cons_of_pos (by simp; omega),
        Nat.add_right_comm, Nat.add_assoc]

/-- The newest schema version up to a cursor carries the schema of that prefix. -/
theorem Whole.schemaVersionAt (h : Whole externals state) (scope : ScopeId) (k : Nat) :
    ∃ found, schemaVersionAt externals.digests state scope k = .ok found ∧
      (∀ change ∈ found, change ∈ state.log) ∧
      found.bind (·.mutation.schema?) = schemaOf (state.log.take k) scope := by
  have hversion : ∀ {key : SchemaVersionKey} {change : RuntimeChange},
      (key, change) ∈ state.logged.schemaVersions.toList ↔ change ∈ state.log ∧
        change.mutation.schema?.isSome ∧ key = schemaVersionKey change.scope change.cursor := by
    intro key change
    rw [SortedMap.mem_toList_iff, h.logged]
    have hentry : (replay state.log).versionAt (.schema key) = some change ↔ _ :=
      versionAt_replay h.chain rfl
    exact hentry.trans (and_congr_right fun _ => LogSpaces.entryOf_eq_schema_iff)
  -- the changes among which the newest one is looked for
  let candidates := ((state.log.take k).filter (·.scope = scope)).filter
    fun change => change.mutation.schema?.isSome
  have hcandidates : ∀ {change : RuntimeChange}, change ∈ candidates ↔ change ∈ state.log ∧
      change.cursor ≤ k ∧ change.scope = scope ∧ change.mutation.schema?.isSome := by
    intro change
    simp only [candidates, h.chain.take_eq_filter, Nat.zero_add, mem_filter,
      decide_eq_true_eq, and_assoc]
  have hschema : schemaOf (state.log.take k) scope =
      candidates.getLast?.bind (·.mutation.schema?) := getLast?_filterMap ..
  have hsorted : candidates.Pairwise fun a b => a.cursor < b.cursor :=
    ((h.chain.pairwise.sublist (take_sublist ..)).filter _).filter _
  unfold Store.schemaVersionAt
  cases hfind : state.logged.schemaVersions.toList.find? fun entry =>
      (ofLex entry.1).1 = scope && OrderDual.ofDual (ofLex entry.1).2 ≤ k with
  | none =>
    refine ⟨none, rfl, by simp, ?_⟩
    have hnil : candidates = [] := by
      rw [eq_nil_iff_forall_not_mem]
      intro change hmem
      obtain ⟨hlog, hk, hscope, hsome⟩ := hcandidates.mp hmem
      have hnone := find?_eq_none.mp hfind _ (hversion.mpr ⟨hlog, hsome, rfl⟩)
      simp [schemaVersionKey, hscope, hk] at hnone
    rw [hschema, hnil]
    rfl
  | some entry =>
    obtain ⟨key, change⟩ := entry
    obtain ⟨hselected, before, after, hsplit, hbefore⟩ := find?_eq_some_iff_append.mp hfind
    have hmem : (key, change) ∈ state.logged.schemaVersions.toList := by simp [hsplit]
    obtain ⟨hlog, hsome, rfl⟩ := hversion.mp hmem
    have hselected' : change.scope = scope ∧ change.cursor ≤ k := by
      rw [Bool.and_eq_true] at hselected
      exact ⟨of_decide_eq_true hselected.1, of_decide_eq_true hselected.2⟩
    have hpass : change.scope = scope ∧ change.cursor ≤ k ∧
        change.verifyDigest externals.digests = true ∧ change.mutation.schema?.isSome ∧
        schemaVersionKey change.scope change.cursor = schemaVersionKey scope change.cursor :=
      ⟨hselected'.1, hselected'.2, h.chain.verifyDigest hlog, hsome, by rw [hselected'.1]⟩
    have hsurvives : change.reread externals.digests.rounded = change :=
      RuntimeChange.survives_of_schema hsome
    refine ⟨some change, ?_, by simpa using hlog, ?_⟩
    · simp only [hsurvives, ensure, if_pos hpass]
      rfl
    have hlast : candidates.getLast? = some change := by
      refine getLast?_of_forall_cursor_le hsorted
        (hcandidates.mpr ⟨hlog, hselected'.2, hselected'.1, hsome⟩) ?_
      intro other hother
      obtain ⟨hlog', hk, hscope, hsome'⟩ := hcandidates.mp hother
      -- an entry before the found one is not selected, one behind it has a larger key
      have hentry := hversion.mpr ⟨hlog', hsome', rfl⟩
      rw [hsplit, mem_append, mem_cons] at hentry
      rcases hentry with hentry | heq | hentry
      · have := hbefore _ hentry
        simp [schemaVersionKey, hscope, hk] at this
      · exact (congrArg (·.2.cursor) heq).le
      · have hlt : schemaVersionKey change.scope change.cursor <
            schemaVersionKey other.scope other.cursor := by
          have hpairwise := state.logged.schemaVersions.sorted
          rw [hsplit] at hpairwise
          exact (pairwise_cons.mp (pairwise_append.mp hpairwise).2.1).1 _ hentry
        rw [schemaVersionKey, schemaVersionKey, hselected'.1, hscope,
          Prod.Lex.toLex_lt_toLex] at hlt
        simpa using hlt.resolve_left (lt_irrefl _) |>.2.le
    rw [hschema, hlast]

/-! ### The stamps of a log -/

/-- A stamp of a log: what a reader is given when this is the whole log. -/
structure StampOf (digests : Digests) (log : List RuntimeChange) (catalogRevision : Nat)
    (read : ReadStamp) : Prop where
  valid : read.validate digests = .ok ()
  cursor : read.commitCursor = log.length
  head : read.headDigest = lastDigestOf none log
  schema : read.schemaRevision = (schemaOf log read.scope).map (·.revision)
  root : read.accumulatorRoot = some (digests.root log)
  catalog : read.catalogRevision = catalogRevision

section

variable (h : Whole externals state)

include h

theorem State.schema?_eq (scope : ScopeId) : state.schema? scope = schemaOf state.log scope := by
  rw [State.schema?, h.logged, schemas_replay]

/-- A stamp that the store hands out is the one of its log. -/
theorem Whole.stampOf (hread : readStampWith externals.digests state scope = .ok read) :
    read.scope = scope ∧
      StampOf externals.digests state.log (state.catalogRevision scope) read := by
  simp only [readStampWith, h.currentAccumulator, ReadStamp.authenticated, bind_eq_ok,
    lift_eq_ok] at hread
  obtain ⟨accumulator, hlog, _, hcomponents, hread⟩ := hread
  obtain rfl := Except.ok.inj hlog
  obtain rfl := Except.ok.inj hread
  refine ⟨rfl, ?_, h.cursor, h.digest, ?_, rfl, rfl⟩
  · simp only [ReadStamp.validate, bind_eq_ok, ensure_eq_ok]
    exact ⟨(), hcomponents, (), validateHex_eq_ok.mpr (externals.digests.stamp_hex _), trivial⟩
  · exact congrArg (Option.map _) (State.schema?_eq h scope)

theorem Whole.exists_stamp (hrevision : ∀ schema ∈ schemaOf state.log scope, schema.revision ≠ 0) :
    ∃ read, readStampWith externals.digests state scope = .ok read := by
  simp only [readStampWith, h.currentAccumulator, ReadStamp.authenticated, bind_eq_ok, lift_eq_ok]
  refine ⟨_, _, rfl, (), ?_, rfl⟩
  simp only [ReadStamp.validateComponents, bind_eq_ok, ensure_eq_ok, forM_eq_ok]
  refine ⟨(), trivial, (), ?_, (), ?_, ?_⟩
  · rw [State.schema?_eq h]
    intro heq
    obtain ⟨schema, hmem, hzero⟩ := Option.map_eq_some_iff.mp heq
    exact hrevision schema hmem hzero
  · rw [ReadStamp.validateHead, h.cursor, h.digest]
    rcases state.log.eq_nil_or_concat with hnil | ⟨init, last, hlog⟩
    · rw [hnil]
      rfl
    · have hmem : last ∈ state.log := by simp [hlog]
      have hdigest := RuntimeChange.isHex_digest (h.chain.verifyDigest hmem)
      rw [hlog, concat_eq_append, length_append, lastDigestOf, getLast?_concat]
      exact validateHex_eq_ok.mpr hdigest
  · intro root hroot
    obtain rfl : root = externals.digests.root state.log := by
      simpa [LogLeaves.root] using hroot
    exact validateHex_eq_ok.mpr (externals.digests.root_hex _)

theorem Whole.loadAccumulator : loadAccumulator state state.cursor = .ok (some ⟨state.log⟩) := by
  have hcurrent := h.currentAccumulator
  simp only [Store.currentAccumulator, bind_eq_ok] at hcurrent
  obtain ⟨found, hload, hfound⟩ := hcurrent
  cases found with
  | none => cases hfound
  | some accumulator =>
    obtain rfl := Except.ok.inj hfound
    exact hload

theorem Whole.verifyChange {change : RuntimeChange} (hmem : change ∈ state.log) :
    (storedLog state).verifyChange externals.digests change = .ok () := by
  simp only [LogLeaves.verifyChange, bind_eq_ok, ensure_eq_ok, h.accumulator]
  exact ⟨(), h.chain.verifyDigest hmem, h.chain.getElem?_cursor hmem⟩

theorem Whole.checkRetained (hlog : log <+: state.log) {size : Nat} (hsize : size = log.length) :
    (storedLog state).checkRetained externals.digests size (externals.digests.root log) =
      .ok () := by
  subst hsize
  simp only [LogLeaves.checkRetained, bind_eq_ok, ensure_eq_ok, h.accumulator]
  exact ⟨(), hlog.length_le, by rw [← prefix_iff_eq_take.mp hlog]⟩

/-- The head that a stamp names is found if it can be read back. -/
theorem Whole.retainedHead (hlog : log <+: state.log) (hcursor : read.commitCursor = log.length)
    {head : Option RuntimeChange} :
    retainedHead externals.digests state read = .ok head ↔
      head = log.getLast? ∧ ∀ last ∈ log.getLast?, last.Survives externals.digests := by
  unfold Store.retainedHead
  rcases log.eq_nil_or_concat with rfl | ⟨init, last, rfl⟩
  · simp [hcursor, eq_comm]
  · rw [concat_eq_append] at hlog hcursor ⊢
    rw [length_append, length_singleton] at hcursor
    have hlast : last ∈ state.log := hlog.subset (by simp)
    obtain ⟨more, hmore⟩ := hlog
    have hchain := h.chain
    rw [← hmore, append_assoc] at hchain
    have hplace : last.cursor = read.commitCursor := by
      rw [(chain_append.mp hchain).2.1.1, hcursor, Nat.zero_add]
    have hfind : state.logged.changes.find? read.commitCursor = some last := by
      rw [← SortedMap.mem_toList_iff, h.logged, toList_changes_replay h.chain, ← hplace]
      exact mem_map_of_mem (f := fun change : RuntimeChange => (change.cursor, change)) hlast
    have hdigest := h.chain.verifyDigest hlast
    rw [if_neg (by omega), hfind, getLast?_concat]
    simp only [bind_eq_ok, ensure_eq_ok, Option.mem_some_iff, forall_eq']
    constructor
    · rintro ⟨_, ⟨-, hreread⟩, _, -, hhead⟩
      have hsurvives := (RuntimeChange.survives_iff hdigest).mpr hreread
      rw [hsurvives] at hhead
      exact ⟨(Except.ok.inj hhead).symm, hsurvives⟩
    · rintro ⟨rfl, hsurvives⟩
      rw [RuntimeChange.Survives] at hsurvives
      rw [hsurvives]
      exact ⟨(), ⟨hplace, hdigest⟩, (), h.verifyChange hlast, rfl⟩

/-- The stamp of a prefix of the log passes the check as long as it is the current one, and
after that if the head it names can be read back. -/
theorem Whole.validateReadStamp (hlog : log <+: state.log)
    (hread : StampOf externals.digests log (state.catalogRevision read.scope) read) :
    validateReadStamp externals.digests state read = .ok () ↔ log = state.log ∨
      ∀ head ∈ log.getLast?, head.Survives externals.digests := by
  have hlength : log.length ≤ state.log.length := hlog.length_le
  have htake : state.log.take read.commitCursor = log := by
    rw [hread.cursor, prefix_iff_eq_take.mp hlog |>.symm]
  have hwithin : read.commitCursor ≤ state.cursor := by
    rw [hread.cursor, h.cursor]
    exact hlength
  have hcurrent : read.commitCursor = state.cursor ↔ log = state.log := by
    rw [hread.cursor, h.cursor]
    exact ⟨hlog.eq_of_length, congrArg length⟩
  simp only [Store.validateReadStamp, bind_eq_ok, lift_eq_ok, ensure_eq_ok, hread.root,
    hread.valid, hwithin, true_and, exists_const, hcurrent]
  split
  · rename_i heq
    subst heq
    simp only [validateCurrentStamp, bind_eq_ok, ensure_eq_ok, true_or, iff_true]
    refine ⟨some ⟨state.log⟩, h.loadAccumulator, hread.catalog, ?_, ?_, ?_⟩
    · rw [hread.head, h.digest]
    · rw [hread.schema, State.schema?_eq h]
    · simp [LogLeaves.root]
  · rename_i hne
    obtain ⟨schema, hschema, hmem, hregistry⟩ := h.schemaVersionAt read.scope read.commitCursor
    simp only [validateRetainedStamp, bind_eq_ok, ensure_eq_ok, forM_eq_ok,
      h.retainedHead hlog hread.cursor, hne, false_or]
    constructor
    · rintro ⟨_, -, head, ⟨-, hsurvives⟩, -⟩
      exact hsurvives
    · intro hsurvives
      refine ⟨(), h.checkRetained hlog hread.cursor, _, ⟨rfl, hsurvives⟩, schema, hschema, (), ?_,
        hread.catalog, by rw [hread.head, lastDigestOf, Option.or_none], ?_⟩
      · intro change hchange
        exact h.verifyChange (hmem change (by simpa using hchange))
      · rw [hread.schema, hregistry, htake]

/-- Only the stamp of a prefix of the log passes the check. -/
theorem Whole.stampOf_of_validate
    (hvalid : Store.validateReadStamp externals.digests state read = .ok ()) :
    StampOf externals.digests (state.log.take read.commitCursor)
      (state.catalogRevision read.scope) read := by
  simp only [Store.validateReadStamp, bind_eq_ok, lift_eq_ok, ensure_eq_ok] at hvalid
  obtain ⟨_, hread, _, hcursor, hvalid⟩ := hvalid
  rw [h.cursor] at hcursor
  have hlength : (state.log.take read.commitCursor).length = read.commitCursor := by
    rw [length_take, min_eq_left hcursor]
  cases hroot : read.accumulatorRoot with
  | none =>
    rw [hroot] at hvalid
    cases hvalid
  | some root =>
    simp only [hroot] at hvalid
    split at hvalid
    · rename_i hcurrent
      have htake : state.log.take read.commitCursor = state.log := by
        rw [hcurrent, h.cursor, take_length]
      simp only [validateCurrentStamp, h.loadAccumulator, bind_eq_ok, ensure_eq_ok] at hvalid
      obtain ⟨_, hlog, hcatalog, hhead, hschema, haccumulator⟩ := hvalid
      obtain rfl := Except.ok.inj hlog
      refine ⟨hread, hlength.symm, ?_, ?_, ?_, hcatalog⟩
      · rw [hhead, htake, h.digest]
      · rw [hschema, htake, State.schema?_eq h]
      · rw [htake, hroot]
        exact congrArg some (of_decide_eq_true haccumulator)
    · simp only [validateRetainedStamp, bind_eq_ok, ensure_eq_ok] at hvalid
      obtain ⟨_, hretained, head, hhead, schema, hschema, _, -, hcatalog, hdigest,
        hrevision⟩ := hvalid
      obtain ⟨rfl, -⟩ := (h.retainedHead ( take_prefix ..) hlength.symm).mp hhead
      obtain ⟨schema', hschema', -, hregistry⟩ := h.schemaVersionAt read.scope read.commitCursor
      obtain rfl : schema = schema' := Except.ok.inj (hschema.symm.trans hschema')
      simp only [LogLeaves.checkRetained, bind_eq_ok, ensure_eq_ok,
        h.accumulator] at hretained
      refine ⟨hread, hlength.symm, ?_, ?_, ?_, hcatalog⟩
      · rw [hdigest, lastDigestOf, Option.or_none]
      · rw [hrevision, hregistry]
      · rw [hroot, ← hretained.choose_spec.2]

end

end Rrflow.Store

import Rrflow.Kernel.Data
import Rrflow.Lsm.Types

/-!
Plans of the context maintenance.

A plan selects a disposition for every class of the history. Completeness and uniqueness of
the classes are checked through a set, which does not see repetitions; a plan divides its
inventory exactly if neither list has any (`build_partitions_iff`).
-/

namespace Rrflow.Maintenance

open Checks List Kernel Lsm

inductive MaintenanceError
  | contract (message : String)
  | panicked
  deriving DecidableEq

inductive HistoryClass
  | activeGoalsConstraints
  | canonicalDecisions
  | completedAttempts
  | supersededPlans
  | duplicateObservations
  | failureLessons
  | providerEnvelopes
  | toolOutputs
  deriving DecidableEq

def HistoryClass.all : List HistoryClass :=
  [activeGoalsConstraints, canonicalDecisions, completedAttempts, supersededPlans,
    duplicateObservations, failureLessons, providerEnvelopes, toolOutputs]

inductive ContextDisposition
  | hot
  | warm
  | cold
  deriving DecidableEq

structure HistoryClassInventory where
  class_ : HistoryClass
  sourceBytes : Nat
  estimatedTokens : Nat
  derivedFrom : String

structure MaintenanceInventory where
  sourceBytes : Nat
  estimatedTokens : Nat
  classes : List HistoryClassInventory

structure MaintenanceDecision where
  class_ : HistoryClass
  proposed : ContextDisposition
  selected : ContextDisposition
  rationale : String
  operatorNote : Option String

structure ProjectionPlan where
  targetReductionBps : Nat
  estimatedReductionBps : Nat
  sourceTokens : Nat
  hotTokens : Nat
  warmTokens : Nat
  coldTokens : Nat
  decisions : List MaintenanceDecision
  projectionSha256 : String

/-! ### Checks -/

def exactClasses (classes : List HistoryClass) : Except MaintenanceError Unit :=
  ensure (classes.toFinset = HistoryClass.all.toFinset)
    (.contract "maintenance history classes must be complete and unique")

def textField (name value : String) (allowEmpty : Bool) : Except MaintenanceError Unit :=
  ensure ((allowEmpty = true ∨ isBlank value = false) ∧ value.utf8ByteSize ≤ 16 * 1024 ∧
      Char.ofNat 0 ∉ value.toList)
    (.contract (name ++ " is empty, oversized, or contains NUL"))

/-- A sum that must not overflow. -/
def add (message : String) (a b : Nat) : Except MaintenanceError Nat :=
  (checkedAdd a b).elim (.error (.contract message)) .ok

def MaintenanceInventory.validate (inventory : MaintenanceInventory) :
    Except MaintenanceError Unit := do
  exactClasses (inventory.classes.map (·.class_))
  let (bytes, tokens) ← inventory.classes.foldlM (fun (bytes, tokens) entry => do
    textField "inventory.derived_from" entry.derivedFrom false
    return (← add "inventory source byte count overflow" bytes entry.sourceBytes,
      ← add "inventory token count overflow" tokens entry.estimatedTokens)) (0, 0)
  ensure (bytes = inventory.sourceBytes ∧ tokens = inventory.estimatedTokens)
    (.contract "inventory totals do not match class totals")
  ensure (inventory.estimatedTokens ≠ 0)
    (.contract "maintenance inventory must contain estimated context tokens")

def MaintenanceDecision.validate (decision : MaintenanceDecision) :
    Except MaintenanceError Unit := do
  textField "decision.rationale" decision.rationale false
  decision.operatorNote.toList.forM (textField "decision.operator_note" · false)
  ensure (decision.proposed = decision.selected ∨ decision.operatorNote.any (!isBlank ·))
    (.contract "every operator override requires a retained note")
  match decision.class_ with
  | .activeGoalsConstraints =>
    ensure (decision.selected = .hot) (.contract "active goals and constraints must remain hot")
  | .canonicalDecisions | .failureLessons =>
    ensure (decision.selected ≠ .cold)
      (.contract "canonical decisions and failure lessons may not become cold")
  | _ => .ok ()

def validateDecisions (decisions : List MaintenanceDecision) : Except MaintenanceError Unit := do
  exactClasses (decisions.map (·.class_))
  decisions.forM MaintenanceDecision.validate

def inReductionRange (bps : Nat) : Bool := 5000 ≤ bps && bps ≤ 7500

def target (value : Nat) : Except MaintenanceError Unit :=
  ensure (inReductionRange value) (.contract "target reduction must be 50%..=75%")

namespace ProjectionPlan

variable (sha256Hex : ProjectionPlan → String)

/-- The digest of a plan whose own digest is cleared. -/
def planDigest (plan : ProjectionPlan) : String := sha256Hex { plan with projectionSha256 := "" }

def validate (plan : ProjectionPlan) (inventory : MaintenanceInventory) :
    Except MaintenanceError Unit := do
  target plan.targetReductionBps
  ensure (plan.projectionSha256.utf8ByteSize = 64 ∧ plan.projectionSha256.toList.all isLowerHex)
    (.contract "projection_sha256 must be a lowercase SHA-256")
  validateDecisions plan.decisions
  ensure (plan.sourceTokens = inventory.estimatedTokens ∧
      (checkedAdd plan.hotTokens plan.warmTokens).bind (checkedAdd · plan.coldTokens) =
        some plan.sourceTokens ∧
      inReductionRange plan.estimatedReductionBps ∧
      planDigest sha256Hex plan = plan.projectionSha256)
    (.contract "projection plan totals or digest do not verify")

def estimates (inventory : MaintenanceInventory) (c : HistoryClass) : List Nat :=
  (inventory.classes.filter (·.class_ = c)).map (·.estimatedTokens)

/-- Adds the estimate of a class to the count of its disposition. The last entry of a class
is the one that the map of estimates keeps. -/
def tally (inventory : MaintenanceInventory) (tokens : ContextDisposition → Nat)
    (decision : MaintenanceDecision) : Except MaintenanceError (ContextDisposition → Nat) := do
  let estimated ← (estimates inventory decision.class_).getLast?.elim (.error .panicked) .ok
  let sum ← add "projection token count overflow" (tokens decision.selected) estimated
  return Function.update tokens decision.selected sum

def build (inventory : MaintenanceInventory) (targetReductionBps : Nat)
    (decisions : List MaintenanceDecision) : Except MaintenanceError ProjectionPlan := do
  inventory.validate
  target targetReductionBps
  validateDecisions decisions
  let tokens ← decisions.foldlM (tally inventory) fun _ => 0
  ensure (tokens .hot ≤ inventory.estimatedTokens)
    (.contract "hot token count exceeds source inventory")
  let removed := inventory.estimatedTokens - tokens .hot
  ensure (removed * 10000 ≤ u64Max) (.contract "projection reduction overflow")
  let estimatedReductionBps := removed * 10000 / inventory.estimatedTokens
  ensure (estimatedReductionBps < 2 ^ 16) (.contract "projection reduction exceeds basis points")
  ensure (inReductionRange estimatedReductionBps) (.contract
    "selected dispositions must produce an estimated 50%..=75% active-context reduction")
  let plan : ProjectionPlan :=
    { targetReductionBps, estimatedReductionBps, sourceTokens := inventory.estimatedTokens
      hotTokens := tokens .hot, warmTokens := tokens .warm, coldTokens := tokens .cold
      decisions, projectionSha256 := "" }
  let plan := { plan with projectionSha256 := planDigest sha256Hex plan }
  plan.validate sha256Hex inventory
  return plan

/-! ### What a plan divides -/

def tokens (plan : ProjectionPlan) : ContextDisposition → Nat
  | .hot => plan.hotTokens
  | .warm => plan.warmTokens
  | .cold => plan.coldTokens

/-- Each class is in both lists once, and the counts divide the tokens of the inventory. -/
structure Partitions (inventory : MaintenanceInventory) (plan : ProjectionPlan) : Prop where
  inventoried : ∀ c, (inventory.classes.map (·.class_)).count c = 1
  decided : ∀ c, (plan.decisions.map (·.class_)).count c = 1
  tokens : ∀ d, plan.tokens d = ((HistoryClass.all.filter fun c =>
    ∃ decision ∈ plan.decisions, decision.class_ = c ∧ decision.selected = d).map fun c =>
      (estimates inventory c).sum).sum
  total : plan.hotTokens + plan.warmTokens + plan.coldTokens = plan.sourceTokens
  reduction : plan.estimatedReductionBps =
    (plan.sourceTokens - plan.hotTokens) * 10000 / plan.sourceTokens

theorem perm_all_iff {l : List HistoryClass} :
    l ~ HistoryClass.all ↔ ∀ c, l.count c = 1 := by
  rw [perm_iff_count]
  refine forall_congr' fun c => ?_
  rw [show HistoryClass.all.count c = 1 by cases c <;> rfl]

theorem perm_all {l : List HistoryClass} (h : exactClasses l = .ok ()) :
    l ~ HistoryClass.all ↔ l.length = 8 := by
  refine ⟨Perm.length_eq, fun hlength => ?_⟩
  have hsubset : HistoryClass.all ⊆ l := by
    intro c hc
    rw [← mem_toFinset, ensure_eq_ok.mp h]
    exact mem_toFinset.mpr hc
  have hnodup : HistoryClass.all.Nodup := by decide
  exact ((hnodup.subperm hsubset).perm_of_length_le hlength.le).symm

variable {inventory : MaintenanceInventory} {decisions : List MaintenanceDecision}

theorem elim_eq_ok {α : Type} {x : Option α} {e : MaintenanceError} {a : α}
    (h : x.elim (.error e) Except.ok = .ok a) : x = some a := by
  cases x with
  | none => cases h
  | some b => exact congrArg some (Except.ok.inj h)

/-- The counts after the loop over the decisions. -/
theorem foldlM_tally {start stop : ContextDisposition → Nat}
    (h : decisions.foldlM (tally inventory) start = .ok stop) (d : ContextDisposition) :
    stop d = start d + ((decisions.filter (·.selected = d)).map fun decision =>
      (estimates inventory decision.class_).getLastD 0).sum := by
  induction decisions generalizing start with
  | nil =>
    cases h
    rfl
  | cons decision rest ih =>
    simp only [foldlM_cons, tally, bind_eq_ok] at h
    obtain ⟨middle, ⟨estimated, hestimated, sum, hsum, hmiddle⟩, hrest⟩ := h
    cases hmiddle
    rw [ih hrest, (checkedAdd_eq_some (elim_eq_ok hsum)).1]
    have hlast := elim_eq_ok hestimated
    by_cases hd : decision.selected = d
    · subst hd
      simp [getLastD_eq_getLast?, hlast, Nat.add_assoc]
    · simp [hd, Ne.symm hd]

/-- The last entry of a class is all of it when there is one. -/
theorem getLastD_estimates {c : HistoryClass}
    (h : (inventory.classes.map (·.class_)).count c = 1) :
    (estimates inventory c).getLastD 0 = (estimates inventory c).sum := by
  have hlength : (estimates inventory c).length = 1 := by
    rw [estimates, length_map, ← countP_eq_length_filter, ← h, count_eq_countP, countP_map]
    rfl
  obtain ⟨tokens, htokens⟩ := length_eq_one_iff.mp hlength
  simp [htokens]

theorem perm_filter_selected (h : decisions.map (·.class_) ~ HistoryClass.all)
    (d : ContextDisposition) : (decisions.filter (·.selected = d)).map (·.class_) ~
      HistoryClass.all.filter fun c =>
        ∃ decision ∈ decisions, decision.class_ = c ∧ decision.selected = d := by
  have hall : HistoryClass.all.Nodup := by decide
  have hnodup := h.nodup_iff.mpr hall
  -- Neither side repeats a class, so their members decide.
  rw [perm_ext_iff_of_nodup (hnodup.sublist (filter_sublist.map _)) (hall.filter _)]
  intro c
  have hc : c ∈ HistoryClass.all := by cases c <;> decide
  simp only [mem_map, mem_filter, decide_eq_true_eq, hc, true_and]
  exact exists_congr fun decision => by tauto

/-- A plan divides its inventory exactly if no class is repeated. -/
theorem build_partitions_iff (inventory : MaintenanceInventory) (targetReductionBps : Nat)
    (decisions : List MaintenanceDecision) (plan : ProjectionPlan)
    (h : build sha256Hex inventory targetReductionBps decisions = .ok plan) :
    Partitions inventory plan ↔ inventory.classes.length = 8 ∧ decisions.length = 8 := by
  simp only [build, MaintenanceInventory.validate, validate, validateDecisions, bind_eq_ok,
    ensure_eq_ok] at h
  obtain ⟨_, ⟨_, hinventory, _⟩, _, _, _, ⟨_, hdecisions, _⟩, tokens, htokens, _, _, _, _, _, _, _,
    _, _, ⟨_, _, _, _, _, _, _, htotal, _⟩, hplan⟩ := h
  cases hplan
  rw [← length_map (·.class_), ← perm_all hinventory, ← length_map (·.class_),
    ← perm_all hdecisions]
  constructor
  · exact fun h => ⟨perm_all_iff.mpr h.inventoried, perm_all_iff.mpr h.decided⟩
  · rintro ⟨hinventoried, hdecided⟩
    refine ⟨perm_all_iff.mp hinventoried, perm_all_iff.mp hdecided, fun d => ?_, ?_, rfl⟩
    · calc
        _ = tokens d := by cases d <;> rfl
        _ = _ := foldlM_tally htokens d
        _ = (((decisions.filter (·.selected = d)).map (·.class_)).map fun c =>
            (estimates inventory c).sum).sum := by
          rw [zero_add, map_map]
          exact congrArg sum (map_congr_left fun decision _ =>
            getLastD_estimates (perm_all_iff.mp hinventoried _))
        _ = _ := ((perm_filter_selected hdecided d).map _).sum_eq
    · obtain ⟨sum, hsum, hrest⟩ := Option.bind_eq_some_iff.mp htotal
      rw [(checkedAdd_eq_some hrest).1, (checkedAdd_eq_some hsum).1]

/-- The goals stay hot, everything else becomes warm. -/
def sampleDecisions : List MaintenanceDecision := HistoryClass.all.map fun c =>
  let selected := if c = .activeGoalsConstraints then .hot else .warm
  { class_ := c, proposed := selected, selected, rationale := "kept", operatorNote := none }

def sampleInventory : MaintenanceInventory :=
  { sourceBytes := 0, estimatedTokens := 10
    classes := HistoryClass.all.map fun c =>
      { class_ := c, sourceBytes := 0, derivedFrom := "log"
        estimatedTokens := match c with
          | .activeGoalsConstraints => 4
          | .toolOutputs => 6
          | _ => 0 } }

def zeros : ProjectionPlan → String := fun _ => String.ofList (replicate 64 '0')

theorem build_partitions_iff_sample : ∃ plan,
    build zeros sampleInventory 6500 sampleDecisions = .ok plan ∧
      (Partitions sampleInventory plan ↔
        sampleInventory.classes.length = 8 ∧ sampleDecisions.length = 8) := by
  have hbuild : (build zeros sampleInventory 6500 sampleDecisions).toOption.any
      (fun _ => true) = true := by decide +kernel
  obtain ⟨plan, hplan, _⟩ := exists_ok_of_any hbuild
  exact ⟨plan, hplan, build_partitions_iff _ _ _ _ _ hplan⟩

/-- The fourth decision, for a class without tokens, is there twice. -/
def repeatedDecisions : List MaintenanceDecision := sampleDecisions.take 4 ++ sampleDecisions.drop 3

theorem build_accepts_repeated : ∃ plan,
    build zeros sampleInventory 6500 repeatedDecisions = .ok plan ∧
      plan.validate zeros sampleInventory = .ok () ∧ ¬ Partitions sampleInventory plan := by
  have hbuild : (build zeros sampleInventory 6500 repeatedDecisions).toOption.any (fun plan =>
      plan.validate zeros sampleInventory = .ok () ∧
        (plan.decisions.map (·.class_)).count .supersededPlans = 2) = true := by decide +kernel
  obtain ⟨plan, hplan, hrepeated⟩ := exists_ok_of_any hbuild
  obtain ⟨hvalid, hcount⟩ := of_decide_eq_true hrepeated
  refine ⟨plan, hplan, hvalid, fun h => ?_⟩
  rw [h.decided] at hcount
  cases hcount

end ProjectionPlan

end Rrflow.Maintenance

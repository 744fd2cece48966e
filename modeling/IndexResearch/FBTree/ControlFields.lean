import IndexResearch.FBTree.ControlWord

/-!
# The fields of the control word

Every operation of `Control` adds or subtracts a constant.  As long as each flag is set only
when it is clear and cleared only when it is set, and the counters fit their fields, nothing
is carried into a neighbouring field or borrowed from it.
-/

namespace IndexResearch.FBTree

inductive ControlOp where
  | latchExclusive
  | unlatchExclusive
  | setOrder
  | clearOrder
  | setSibling
  | clearSibling
  | setDelete
  | beginSplitting
  | endSplitting
  | updateVersion
  deriving DecidableEq, Repr

inductive ControlField where
  | flag (bit : Word.Flag)
  | splitting
  | version

namespace ControlField

def mask : ControlField → Word
  | .flag bit => bit.bit
  | splitting => Word.kSplitMask
  | version => Word.kVersionMask

def unit : ControlField → Nat
  | .flag bit => 2 ^ bit.position
  | splitting => 2 ^ 8
  | version => 2 ^ 24

def get (control : Control) : ControlField → Nat
  | .flag bit => (bit.get control).toNat
  | splitting => control.splitting
  | version => control.version

end ControlField

def ControlOp.field : ControlOp → ControlField
  | latchExclusive => .flag .lock
  | unlatchExclusive => .flag .lock
  | setOrder => .flag .ordered
  | clearOrder => .flag .ordered
  | setSibling => .flag .sibling
  | clearSibling => .flag .sibling
  | setDelete => .flag .deleted
  | beginSplitting => .splitting
  | endSplitting => .splitting
  | updateVersion => .version

namespace Word

/-- The word after an operation; `latch_exclusive` waits until the latch is free. -/
def apply (word : Word) : ControlOp → Option Word
  | .latchExclusive => if word.locked then none else some word.latched
  | .unlatchExclusive => word.unlatchExclusive
  | .setOrder => word.setOrder
  | .clearOrder => word.clearOrder
  | .setSibling => word.setSibling
  | .clearSibling => word.clearSibling
  | .setDelete => word.setDelete
  | .beginSplitting => word.beginSplitting
  | .endSplitting => word.endSplitting
  | .updateVersion => some word.updateVersion

def run (word : Word) : List ControlOp → Option Word
  | [] => some word
  | operation :: rest => (word.apply operation).bind fun next => next.run rest

end Word

namespace Control

def apply (control : Control) : ControlOp → Control
  | .latchExclusive => { control with lock := true }
  | .unlatchExclusive => { control with lock := false }
  | .setOrder => control.setOrder
  | .clearOrder => control.clearOrder
  | .setSibling => control.setSibling
  | .clearSibling => control.clearSibling
  | .setDelete => control.setDelete
  | .beginSplitting => control.beginSplitting
  | .endSplitting => control.endSplitting
  | .updateVersion => control.updateVersion

/-- The flag of an operation has the value that its check requires, and the counters stay
within their fields. -/
def permits (control : Control) : ControlOp → Bool
  | .latchExclusive => !control.lock
  | .unlatchExclusive => control.lock
  | .setOrder => !control.ordered
  | .clearOrder => control.ordered
  | .setSibling => !control.sibling
  | .clearSibling => control.sibling
  | .setDelete => !control.deleted
  | .beginSplitting => decide (control.splitting + 1 < 2 ^ 16)
  | .endSplitting => decide (0 < control.splitting)
  | .updateVersion => decide (control.version + 1 < 2 ^ 40)

def run (control : Control) : List ControlOp → Option Control
  | [] => some control
  | operation :: rest => if control.permits operation then (control.apply operation).run
    rest else none

variable {control control' : Control} {operation : ControlOp} {operations : List ControlOp}

theorem run_cons (ran : control.run (operation :: operations) = some control') :
    control.permits operation = true ∧ (control.apply operation).run operations = some control':= by
  rw [run] at ran
  split at ran
  · rename_i permitted
    exact ⟨permitted, ran⟩
  · cases ran

theorem version_apply :
    (control.apply operation).version =
      control.version + if operation = .updateVersion then 1 else 0 := by
  cases operation <;> rfl

theorem version_apply_lt (fits : control.version < 2 ^ 40)
    (permitted : control.permits operation = true) :
    (control.apply operation).version < 2 ^ 40 := by
  rw [version_apply]
  split
  · rename_i bumped
    rw [bumped] at permitted
    exact of_decide_eq_true permitted
  · exact fits

theorem splitting_apply (permitted : control.permits operation = true) :
    (control.apply operation).splitting + (if operation = .endSplitting then 1 else 0) =
      control.splitting + if operation = .beginSplitting then 1 else 0 := by
  cases operation with
  | endSplitting => exact Nat.sub_add_cancel (of_decide_eq_true permitted)
  | _ => rfl

theorem version_run (ran : control.run operations = some control') :
    control'.version = control.version + operations.count .updateVersion := by
  induction operations generalizing control with
  | nil =>
    cases ran
    rfl
  | cons operation rest hypothesis =>
    rw [hypothesis (run_cons ran).2, version_apply, List.count_cons]
    simp only [beq_iff_eq]
    omega

theorem splitting_run (ran : control.run operations = some control') :
    control'.splitting + operations.count .endSplitting =
      control.splitting + operations.count .beginSplitting := by
  induction operations generalizing control with
  | nil =>
    cases ran
    rfl
  | cons operation rest hypothesis =>
    have step := splitting_apply (run_cons ran).1
    have following := hypothesis (run_cons ran).2
    simp only [List.count_cons, beq_iff_eq]
    omega

end Control

theorem ControlField.get_apply {control : Control} {operation : ControlOp} {field : ControlField}
    (other : field ≠ operation.field) :
    field.get (control.apply operation) = field.get control := by
  rcases field with bit | _ | _
  · cases bit <;> cases operation <;> first | rfl | exact absurd rfl other
  · cases operation <;> first | rfl | exact absurd rfl other
  · cases operation <;> first | rfl | exact absurd rfl other

namespace Word

namespace Codes

variable {word : Word} {control : Control}

section

variable (codes : Codes word control)
include codes

theorem isSome_raise (flag : Flag) : (word.raise flag.bit).isSome = !flag.get control := by
  rw [raise, codes.has_eq]
  cases flag.get control <;> rfl

theorem isSome_lower (flag : Flag) : (word.lower flag.bit).isSome = flag.get control := by
  rw [lower, codes.has_eq]
  cases flag.get control <;> rfl

theorem isSome_beginSplitting :
    word.beginSplitting.isSome = decide (control.splitting + 1 < 2 ^ 16) := by
  have few := codes.splitting_lt
  rw [beginSplitting]
  split
  · rename_i full
    have tokens := (codes.and_kSplitMask_eq_iff (2 ^ 16 - 1) toNat_kSplitMask).mp full
    exact (decide_eq_false (by omega)).symm
  · rename_i room
    have tokens := mt (codes.and_kSplitMask_eq_iff (2 ^ 16 - 1) toNat_kSplitMask).mpr room
    exact (decide_eq_true (by omega)).symm

theorem isSome_endSplitting : word.endSplitting.isSome = decide (0 < control.splitting) := by
  rw [endSplitting]
  split
  · rename_i empty
    have tokens := (codes.and_kSplitMask_eq_iff 0 BitVec.toNat_zero).mp empty
    exact (decide_eq_false (by omega)).symm
  · rename_i some
    have tokens := mt (codes.and_kSplitMask_eq_iff 0 BitVec.toNat_zero).mpr some
    exact (decide_eq_true (by omega)).symm

end

end Codes

structure Packs (word : Word) (control : Control) : Prop extends Codes word control where
  version_lt : control.version < 2 ^ 40

namespace Packs

variable {word word' : Word} {control control' : Control} {operation : ControlOp}
  {operations : List ControlOp}

section

variable (packs : Packs word control)
include packs

theorem toNat_sum :
    word.toNat = flags control + control.splitting * 2 ^ 8 + control.version * 2 ^ 24 := by
  have toNat := packs.toNat_eq
  rw [Nat.mod_eq_of_lt packs.version_lt] at toNat
  omega

theorem toNat_field (field : ControlField) :
    (word &&& field.mask).toNat = field.get control * field.unit := by
  cases field with
  | flag bit => exact packs.toNat_and_bit bit
  | splitting => exact packs.toNat_splitting
  | version =>
    have version := packs.toNat_loadVersion
    rwa [Nat.mod_eq_of_lt packs.version_lt] at version

theorem isSome_apply (checked : operation ≠ .updateVersion) :
    (word.apply operation).isSome = control.permits operation := by
  cases operation with
  | latchExclusive =>
    rw [Word.apply, packs.locked_eq, Control.permits]
    cases control.lock <;> rfl
  | unlatchExclusive => exact packs.isSome_lower .lock
  | setOrder => exact packs.isSome_raise .ordered
  | clearOrder => exact packs.isSome_lower .ordered
  | setSibling => exact packs.isSome_raise .sibling
  | clearSibling => exact packs.isSome_lower .sibling
  | setDelete => exact packs.isSome_raise .deleted
  | beginSplitting => exact packs.isSome_beginSplitting
  | endSplitting => exact packs.isSome_endSplitting
  | updateVersion => exact absurd rfl checked

theorem apply_codes (applied : word.apply operation = some word') :
    Codes word' (control.apply operation) := by
  cases operation with
  | latchExclusive =>
    rw [Word.apply, packs.locked_eq] at applied
    split at applied
    · cases applied
    · rename_i free
      cases applied
      exact packs.latched (eq_false_of_ne_true free)
  | unlatchExclusive => exact packs.lower_eq_some .lock applied
  | setOrder => exact packs.raise_eq_some .ordered applied
  | clearOrder => exact packs.lower_eq_some .ordered applied
  | setSibling => exact packs.raise_eq_some .sibling applied
  | clearSibling => exact packs.lower_eq_some .sibling applied
  | setDelete => exact packs.raise_eq_some .deleted applied
  | beginSplitting => exact packs.beginSplitting_eq_some applied
  | endSplitting => exact packs.endSplitting_eq_some applied
  | updateVersion =>
    obtain rfl := Option.some.inj applied
    exact packs.updateVersion

theorem apply_eq (permitted : control.permits operation = true) :
    ∃ word', word.apply operation = some word' ∧ Packs word' (control.apply operation) := by
  have returns : (word.apply operation).isSome = true := by
    by_cases checked : operation = .updateVersion
    · rw [checked]
      rfl
    · rw [packs.isSome_apply checked, permitted]
  obtain ⟨word', applied⟩ := Option.isSome_iff_exists.mp returns
  refine ⟨word', applied, packs.apply_codes applied, ?_⟩
  exact Control.version_apply_lt packs.version_lt permitted

theorem and_mask_apply (packs' : Packs word' (control.apply operation))
    {field : ControlField} (other : field ≠ operation.field) :
    word' &&& field.mask = word &&& field.mask := by
  apply BitVec.eq_of_toNat_eq
  rw [packs'.toNat_field, packs.toNat_field, ControlField.get_apply other]

theorem run_eq (ran : control.run operations = some control') :
    ∃ word', word.run operations = some word' ∧ Packs word' control' := by
  induction operations generalizing word control with
  | nil =>
    cases ran
    exact ⟨word, rfl, packs⟩
  | cons operation rest hypothesis =>
    obtain ⟨permitted, ran⟩ := Control.run_cons ran
    obtain ⟨next, applied, packed⟩ := packs.apply_eq permitted
    obtain ⟨word', ranWord, packs'⟩ := hypothesis packed ran
    refine ⟨word', ?_, packs'⟩
    rw [Word.run, applied]
    exact ranWord

theorem loadVersion_lt_iff (packs' : Packs word' control')
    (ran : control.run operations = some control') :
    word.loadVersion < word'.loadVersion ↔ .updateVersion ∈ operations := by
  have before := packs.toNat_field .version
  have after := packs'.toNat_field .version
  simp only [ControlField.mask, ControlField.get, ControlField.unit] at before after
  rw [BitVec.lt_def, loadVersion, loadVersion, before, after, Control.version_run ran,
    ← List.count_pos_iff]
  omega

end

end Packs

/-- The word is the disjoint sum of its fields after every sequence of operations whose checks
pass and whose counters fit: no operation touches a field other than its own, and the version
only grows. -/
theorem run_disjoint_fields {isLeaf : Bool} {operations : List ControlOp} {control : Control}
    (ran : (Control.new isLeaf).run operations = some control) :
    ∃ word, (Word.new isLeaf).run operations = some word ∧
      word.toNat = flags control + control.splitting * 2 ^ 8 + control.version * 2 ^ 24 ∧
      flags control < 2 ^ 5 ∧ control.splitting < 2 ^ 16 ∧ control.version < 2 ^ 40 ∧
      control.splitting + operations.count .endSplitting = operations.count .beginSplitting ∧
      control.version = operations.count .updateVersion ∧
      (∀ field : ControlField, (word &&& field.mask).toNat = field.get control * field.unit) ∧
      (∀ operation, operation ≠ .updateVersion →
        (word.apply operation).isSome = control.permits operation) ∧
      (∀ operation, control.permits operation = true →
        ∃ next, word.apply operation = some next ∧
          ∀ field, field ≠ operation.field → next &&& field.mask = word &&& field.mask) ∧
      ∀ more later, control.run more = some later →
        ∃ next, word.run more = some next ∧
          (word.loadVersion < next.loadVersion ↔ .updateVersion ∈ more) := by
  have start : Packs (Word.new isLeaf) (Control.new isLeaf) :=
    ⟨Codes.new isLeaf, Nat.two_pow_pos 40⟩
  obtain ⟨word, ranWord, packs⟩ := start.run_eq ran
  refine ⟨word, ranWord, packs.toNat_sum, flags_lt control, packs.splitting_lt, packs.version_lt,
    ?_, ?_, packs.toNat_field, fun operation checked => packs.isSome_apply checked, ?_, ?_⟩
  · simpa [Control.new] using Control.splitting_run ran
  · simpa [Control.new] using Control.version_run ran
  · intro operation permitted
    obtain ⟨next, applied, packed⟩ := packs.apply_eq permitted
    exact ⟨next, applied, fun field other => packs.and_mask_apply packed other⟩
  · intro more later ranMore
    obtain ⟨next, ranNext, packed⟩ := packs.run_eq ranMore
    exact ⟨next, ranNext, packs.loadVersion_lt_iff packed ranMore⟩

def splittingLeaf : List ControlOp :=
  [.setOrder, .latchExclusive, .clearOrder, .setOrder, .beginSplitting, .setSibling, .updateVersion,
    .unlatchExclusive]

theorem run_disjoint_fields_splittingLeaf :
    ∃ word, (Word.new true).run splittingLeaf = some word ∧
      word.toNat = (16 + 8 + 4) + 1 * 2 ^ 8 + 1 * 2 ^ 24 := by
  have ran : (Control.new true).run splittingLeaf =
      some { Control.new true with ordered := true, sibling := true, splitting := 1, version :=
        1 } :=
    rfl
  obtain ⟨word, ranWord, toNat, -⟩ := run_disjoint_fields ran
  exact ⟨word, ranWord, toNat⟩

end Word

end IndexResearch.FBTree

import Arith64.Proofs.Machine

/-!
# Where a run stops

A run stops at the first node whose right operand is a zero divisor and leaves
the operands that were still waiting: the left ones of the nodes around it that
had come to their right operand. How deep the expression is bounds how many
values can wait at a time.
-/

namespace Arith64

/-! ## Nodes and the paths to them -/

/-- A step down to an operand. -/
inductive Turn where
  | only
  | left
  | right
  deriving DecidableEq

namespace Expr

/-- The node at the end of a path, unless the path leaves the expression. -/
def at? : Expr → List Turn → Option Expr
  | e, [] => some e
  | negate e, .only :: path => e.at? path
  | group e, .only :: path => e.at? path
  | binary _ l _, .left :: path => l.at? path
  | binary _ _ r, .right :: path => r.at? path
  | _, _ :: _ => none

/-- The paths to all nodes, a node behind its operands and left before right. -/
def paths : Expr → List (List Turn)
  | literal _ => [[]]
  | negate e => e.paths.map (.only :: ·) ++ [[]]
  | binary _ l r => l.paths.map (.left :: ·) ++ r.paths.map (.right :: ·) ++ [[]]
  | group e => e.paths.map (.only :: ·) ++ [[]]

/-- The left operands of the nodes that a path turns right at, the outermost one first. -/
def pending : Expr → List Turn → List Expr
  | negate e, .only :: path => e.pending path
  | group e, .only :: path => e.pending path
  | binary _ l _, .left :: path => l.pending path
  | binary _ l r, .right :: path => l :: r.pending path
  | _, _ => []

theorem mem_paths_iff {e : Expr} {path : List Turn} :
    path ∈ e.paths ↔ ∃ node, e.at? path = some node := by
  induction e generalizing path with
  | literal v => cases path <;> simp [paths, at?]
  | negate e ih => rcases path with _ | ⟨_ | _ | _, path⟩ <;> simp [paths, at?, ih]
  | binary op l r ihl ihr =>
    rcases path with _ | ⟨_ | _ | _, path⟩ <;> simp [paths, at?, ihl, ihr]
  | group e ih => rcases path with _ | ⟨_ | _ | _, path⟩ <;> simp [paths, at?, ih]

end Expr

/-! ## Zero divisors -/

/-- The fault of an operator whose right operand is zero. -/
def BinOp.zeroFault? : BinOp → Option Fault
  | .div => some .divisionByZero
  | .rem => some .remainderByZero
  | _ => none

theorem BinOp.exists_zeroFault?_iff {op : BinOp} :
    (∃ fault, op.zeroFault? = some fault) ↔ op = .div ∨ op = .rem := by
  cases op <;> simp [zeroFault?]

theorem BinOp.apply_eq_error_iff {op : BinOp} {a b : Int64} {fault : Fault} :
    op.apply a b = .error fault ↔ b = 0 ∧ op.zeroFault? = some fault := by
  cases op <;> by_cases hb : b = 0 <;> simp [apply, zeroFault?, hb]

namespace Expr

/-- The fault of the node at the end of a path, if both its operands have values and the right
one is zero. -/
def faultAt? (e : Expr) (path : List Turn) : Option Fault :=
  match e.at? path with
  | some (binary op l r) =>
    match l.evaluate, r.evaluate with
    | .ok _, .ok b => if b = 0 then op.zeroFault? else none
    | _, _ => none
  | _ => none

/-- The path to the first node, each behind its operands, that faults. -/
def firstFault? (e : Expr) : Option (List Turn) :=
  e.paths.find? fun path => (e.faultAt? path).isSome

theorem faultAt?_eq_some_iff {e : Expr} {path : List Turn} {fault : Fault} :
    e.faultAt? path = some fault ↔ ∃ op l r a, e.at? path = some (binary op l r) ∧
      op.zeroFault? = some fault ∧ l.evaluate = .ok a ∧ r.evaluate = .ok 0 := by
  unfold faultAt?
  constructor
  · intro h
    split at h
    · rename_i op l r hnode
      split at h
      · rename_i a b ha hb
        split at h
        · rename_i hzero
          subst hzero
          exact ⟨op, l, r, a, hnode, h, ha, hb⟩
        · cases h
      · cases h
    · cases h
  · rintro ⟨op, l, r, a, hnode, hfault, ha, hb⟩
    simp [hnode, ha, hb, hfault]

theorem exists_faultAt?_iff {e : Expr} {path : List Turn} :
    (∃ fault, e.faultAt? path = some fault) ↔ ∃ op l r a, e.at? path = some (binary op l r) ∧
      (op = .div ∨ op = .rem) ∧ l.evaluate = .ok a ∧ r.evaluate = .ok 0 := by
  simp only [faultAt?_eq_some_iff, ← BinOp.exists_zeroFault?_iff]
  constructor
  · rintro ⟨fault, op, l, r, a, hnode, hfault, hl, hr⟩
    exact ⟨op, l, r, a, hnode, ⟨fault, hfault⟩, hl, hr⟩
  · rintro ⟨op, l, r, a, hnode, ⟨fault, hfault⟩, hl, hr⟩
    exact ⟨fault, op, l, r, a, hnode, hfault, hl, hr⟩

theorem exists_firstFault?_iff {e : Expr} :
    (∃ path, e.firstFault? = some path) ↔ ∃ path fault, e.faultAt? path = some fault := by
  rw [← Option.isSome_iff_exists, firstFault?, List.find?_isSome]
  simp only [Option.isSome_iff_exists]
  constructor
  · rintro ⟨path, -, h⟩
    exact ⟨path, h⟩
  · rintro ⟨path, fault, h⟩
    obtain ⟨op, l, r, a, hnode, -⟩ := faultAt?_eq_some_iff.mp h
    exact ⟨path, mem_paths_iff.mpr ⟨_, hnode⟩, fault, h⟩

/-! ## The first fault, down the tree -/

theorem firstFault?_above {outer e : Expr} (hpaths : outer.paths = e.paths.map (.only :: ·) ++ [[]])
    (hroot : outer.faultAt? [] = none)
    (hbelow : ∀ path, outer.faultAt? (.only :: path) = e.faultAt? path) :
    outer.firstFault? = e.firstFault?.map (.only :: ·) := by
  simp [firstFault?, hpaths, List.find?_append, List.find?_map, hroot, hbelow]

theorem firstFault?_negate (e : Expr) :
    (negate e).firstFault? = e.firstFault?.map (.only :: ·) :=
  firstFault?_above rfl rfl fun _ => rfl

theorem firstFault?_group (e : Expr) :
    (group e).firstFault? = e.firstFault?.map (.only :: ·) :=
  firstFault?_above rfl rfl fun _ => rfl

theorem firstFault?_binary (op : BinOp) (l r : Expr) :
    (binary op l r).firstFault? =
      ((l.firstFault?.map (.left :: ·)).or (r.firstFault?.map (.right :: ·))).or
        (if ((binary op l r).faultAt? []).isSome then some [] else none) := by
  have hleft (path : List Turn) :
      (binary op l r).faultAt? (.left :: path) = l.faultAt? path := rfl
  have hright (path : List Turn) :
      (binary op l r).faultAt? (.right :: path) = r.faultAt? path := rfl
  simp [firstFault?, paths, List.find?_append, List.find?_map, List.find?_singleton, hleft, hright,
    Option.or_assoc]

/-- The value of an expression breaks off at the end of a path, and these values of the operands
that wait are left on any stack, the outermost one at the bottom. -/
structure BreaksOff (e : Expr) (path : List Turn) (fault : Fault) (kept : List Int64) : Prop where
  first : e.firstFault? = some path
  here : e.faultAt? path = some fault
  value : e.value = .error fault
  waiting : (e.pending path).map evaluate = kept.map .ok
  residue : ∀ stack, e.residue stack = kept.reverse ++ stack

section BreaksOff

variable {e l r : Expr} {op : BinOp} {path : List Turn} {fault : Fault} {kept : List Int64}
  {a b : Int64}

theorem evaluate_of_value (hfit : e.literalCount ≤ 2 ^ 32) (h : e.value = .ok a) :
    e.evaluate = .ok a := by
  rw [evaluate_eq_value hfit, h]
  rfl

theorem BreaksOff.negate (h : e.BreaksOff path fault kept) :
    (negate e).BreaksOff (.only :: path) fault kept where
  first := by rw [firstFault?_negate, h.first]; rfl
  here := h.here
  value := by rw [Expr.value, h.value]
  waiting := h.waiting
  residue := h.residue

theorem BreaksOff.group (h : e.BreaksOff path fault kept) :
    (group e).BreaksOff (.only :: path) fault kept where
  first := by rw [firstFault?_group, h.first]; rfl
  here := h.here
  value := h.value
  waiting := h.waiting
  residue := h.residue

theorem BreaksOff.left (h : l.BreaksOff path fault kept) :
    (binary op l r).BreaksOff (.left :: path) fault kept where
  first := by rw [firstFault?_binary, h.first]; rfl
  here := h.here
  value := by rw [Expr.value, h.value]
  waiting := h.waiting
  residue stack := by rw [Expr.residue, h.value, h.residue]

theorem BreaksOff.right (hfit : l.literalCount ≤ 2 ^ 32) (hnone : l.firstFault? = none)
    (hl : l.value = .ok a) (h : r.BreaksOff path fault kept) :
    (binary op l r).BreaksOff (.right :: path) fault (a :: kept) where
  first := by rw [firstFault?_binary, hnone, h.first]; rfl
  here := h.here
  value := by rw [Expr.value, hl, h.value]
  waiting := by
    rw [pending, List.map_cons, List.map_cons, evaluate_of_value hfit hl, h.waiting]
  residue stack := by
    simp only [Expr.residue, hl, h.value, h.residue, List.reverse_cons, List.append_assoc]
    rfl

theorem faultAt?_nil_iff (hlfit : l.literalCount ≤ 2 ^ 32) (hrfit : r.literalCount ≤ 2 ^ 32)
    (hl : l.value = .ok a) (hr : r.value = .ok b) :
    (binary op l r).faultAt? [] = some fault ↔ op.apply a b = .error fault := by
  simp only [faultAt?, at?, evaluate_of_value hlfit hl, evaluate_of_value hrfit hr,
    Option.ite_none_right_eq_some, BinOp.apply_eq_error_iff]

theorem BreaksOff.root (hlnone : l.firstFault? = none) (hrnone : r.firstFault? = none)
    (hl : l.value = .ok a) (hr : r.value = .ok b) (happly : op.apply a b = .error fault)
    (hroot : (binary op l r).faultAt? [] = some fault) :
    (binary op l r).BreaksOff [] fault [] where
  first := by rw [firstFault?_binary, hlnone, hrnone, hroot]; rfl
  here := hroot
  value := by simp only [Expr.value, hl, hr, happly]
  waiting := rfl
  residue stack := by simp only [Expr.residue, hl, hr, List.reverse_nil, List.nil_append]

end BreaksOff

theorem value_or_breaksOff {e : Expr} (hfit : e.literalCount ≤ 2 ^ 32) :
    (e.firstFault? = none ∧ ∃ v, e.value = .ok v) ∨
      ∃ path fault kept, e.BreaksOff path fault kept := by
  induction e with
  | literal v => exact .inl ⟨rfl, v, rfl⟩
  | negate e ih =>
    rcases ih hfit with ⟨hnone, v, hv⟩ | ⟨path, fault, kept, h⟩
    · exact .inl ⟨by rw [firstFault?_negate, hnone]; rfl, -v, by rw [value, hv]⟩
    · exact .inr ⟨_, fault, kept, h.negate⟩
  | binary op l r ihl ihr =>
    rw [literalCount] at hfit
    have hlfit : l.literalCount ≤ 2 ^ 32 := by omega
    have hrfit : r.literalCount ≤ 2 ^ 32 := by omega
    rcases ihl hlfit with ⟨hlnone, a, ha⟩ | ⟨path, fault, kept, h⟩
    · rcases ihr hrfit with ⟨hrnone, b, hb⟩ | ⟨path, fault, kept, h⟩
      · -- Neither operand faults, so all depends on the operator at the root.
        have hroot (fault : Fault) :
            (binary op l r).faultAt? [] = some fault ↔ op.apply a b = .error fault :=
          faultAt?_nil_iff hlfit hrfit ha hb
        cases happly : op.apply a b with
        | error fault =>
          exact .inr ⟨[], fault, [], .root hlnone hrnone ha hb happly ((hroot fault).mpr happly)⟩
        | ok v =>
          have hnone : (binary op l r).faultAt? [] = none := by
            rw [Option.eq_none_iff_forall_ne_some]
            intro fault hfault
            rw [hroot, happly] at hfault
            cases hfault
          refine .inl ⟨?_, v, by simp only [value, ha, hb, happly]⟩
          rw [firstFault?_binary, hlnone, hrnone, hnone]
          rfl
      · exact .inr ⟨_, fault, a :: kept, h.right hlfit hlnone ha⟩
    · exact .inr ⟨_, fault, kept, h.left⟩
  | group e ih =>
    rcases ih hfit with ⟨hnone, v, hv⟩ | ⟨path, fault, kept, h⟩
    · exact .inl ⟨by rw [firstFault?_group, hnone]; rfl, v, hv⟩
    · exact .inr ⟨_, fault, kept, h.group⟩

end Expr

/-! ## How high the stack gets -/

/-- The stack that instructions leave, also when they stop early. -/
def leftStack : Except Stopped Stack → Stack
  | .ok stack => stack
  | .error stopped => stopped.stack

/-- The stack of a run after some number of instructions, or the one that it stopped with. -/
def Program.stackAfter (p : Program) (stack : Stack) (n : Nat) : Stack :=
  leftStack (exec p.constants (p.code.take n) stack.cleared)

/-- At no point do these instructions have more than `bound` values on the stack. -/
def Stays (constants : Array Int64) (bound : Nat) (code : List Instr) (stack : Stack) : Prop :=
  ∀ n, (leftStack (exec constants (code.take n) stack)).length ≤ bound

section Stays

variable {constants : Array Int64} {bound : Nat} {front back code : List Instr} {stack : Stack}

theorem Stays.mono {higher : Nat} (h : Stays constants bound code stack) (hle : bound ≤ higher) :
    Stays constants higher code stack := fun n => Nat.le_trans (h n) hle

theorem Stays.append (hfront : Stays constants bound front stack)
    (hback : ∀ next, exec constants front stack = .ok next → Stays constants bound back next) :
    Stays constants bound (front ++ back) stack := by
  intro n
  have hn := hfront n
  rw [List.take_append, exec_append]
  by_cases hlen : n ≤ front.length
  · -- the second part has not begun yet
    rw [Nat.sub_eq_zero_of_le hlen, List.take_zero]
    cases hexec : exec constants (front.take n) stack <;> rw [hexec] at hn <;> exact hn
  · rw [List.take_of_length_le (by omega)] at hn ⊢
    cases hexec : exec constants front stack with
    | error stopped =>
      rw [hexec] at hn
      exact hn
    | ok next => exact hback next hexec _

theorem stays_singleton {instr : Instr} (hstack : stack.length ≤ bound)
    (hstep : (leftStack (instr.step constants stack)).length ≤ bound) :
    Stays constants bound [instr] stack := by
  intro n
  cases n with
  | zero => exact hstack
  | succ n =>
    rw [List.take_succ_cons, List.take_nil, exec]
    cases h : instr.step constants stack <;> rw [h] at hstep <;> exact hstep

theorem exec_postorder_ok {e : Expr} {next : Stack} (hdoes : Does constants code e.postorder)
    (hexec : exec constants code stack = .ok next) : ∃ v, next = v :: stack := by
  have hpost := exec_postorder hdoes [] stack
  rw [List.append_nil, hexec] at hpost
  cases hvalue : e.value with
  | error fault =>
    rw [hvalue] at hpost
    cases hpost
  | ok v =>
    rw [hvalue] at hpost
    cases hpost
    exact ⟨v, rfl⟩

theorem Instr.length_step_operate_le (op : BinOp) (a b : Int64) (stack : Stack) :
    (leftStack (Instr.step constants (.operate op) (b :: a :: stack))).length ≤
      stack.length + 1 := by
  rw [Instr.step]
  cases op.apply a b <;> simp [leftStack]

theorem stays_postorder {e : Expr} (h : Does constants code e.postorder) (stack : Stack) :
    Stays constants (stack.length + e.depth + 1) code stack := by
  induction e generalizing code stack with
  | literal v =>
    obtain ⟨instr, rfl, hinstr⟩ := h.of_singleton
    refine stays_singleton (by omega) ?_
    rw [Instr.step_constant hinstr]
    exact Nat.le_refl _
  | negate e ih =>
    obtain ⟨front, back, rfl, hfront, hback⟩ := h.of_append
    obtain ⟨instr, rfl, hinstr⟩ := hback.of_singleton
    obtain rfl := Instr.operation?_eq_negate_iff.mp hinstr
    rw [Expr.depth]
    refine ((ih hfront stack).mono (by omega)).append ?_
    intro next hnext
    obtain ⟨v, rfl⟩ := exec_postorder_ok hfront hnext
    exact stays_singleton (by simp) (by simp [Instr.step, leftStack])
  | binary op l r ihl ihr =>
    obtain ⟨left, back, rfl, hleft, hback⟩ := h.of_append
    obtain ⟨right, back, rfl, hright, hback⟩ := hback.of_append
    obtain ⟨instr, rfl, hinstr⟩ := hback.of_singleton
    obtain rfl := Instr.operation?_eq_operate_iff.mp hinstr
    rw [Expr.depth]
    refine ((ihl hleft stack).mono (by omega)).append ?_
    intro next hnext
    obtain ⟨a, rfl⟩ := exec_postorder_ok hleft hnext
    -- the value of the left operand waits below the right one
    have hheight := ihr hright (a :: stack)
    rw [List.length_cons] at hheight
    refine (hheight.mono (by omega)).append ?_
    intro next hnext
    obtain ⟨b, rfl⟩ := exec_postorder_ok hright hnext
    have hstep :
        (leftStack (Instr.step constants (.operate op) (b :: a :: stack))).length ≤
          stack.length + 1 :=
      Instr.length_step_operate_le op a b stack
    refine stays_singleton ?_ (by omega)
    simp only [List.length_cons]
    omega
  | group e ih =>
    rw [Expr.depth]
    exact (ih h stack).mono (by omega)

end Stays

/-! ## The program of an expression -/

namespace Expr

theorem length_stackAfter_program {e : Expr} (hfit : e.literalCount ≤ 2 ^ 32) (stack : Stack)
    (n : Nat) : (e.program.stackAfter stack n).length ≤ e.depth + 1 := by
  have hstays := stays_postorder (does_program hfit) [] n
  rw [List.length_nil, Nat.zero_add] at hstays
  rw [Program.stackAfter, Stack.cleared_eq_nil]
  exact hstays

/-- A run faults exactly if some division or remainder has two operands with values and the right
one is zero. It stops at the first such node with the values of the operands that wait for it, and
otherwise leaves nothing. There are never more values on the stack than levels in the expression. -/
theorem run_program_settles (e : Expr) (hfit : e.literalCount ≤ 2 ^ 32) (stack : Stack) :
    ((∃ fault, (e.program.run stack).1 = .error (.fault fault)) ↔
      ∃ path op l r a, e.at? path = some (binary op l r) ∧ (op = .div ∨ op = .rem) ∧
        l.evaluate = .ok a ∧ r.evaluate = .ok 0) ∧
    (∀ fault, (e.program.run stack).1 = .error (.fault fault) →
      ∃ path kept, e.firstFault? = some path ∧ e.faultAt? path = some fault ∧
        (e.pending path).map evaluate = kept.map .ok ∧
        (e.program.run stack).2.reverse = kept) ∧
    ((∀ fault, (e.program.run stack).1 ≠ .error (.fault fault)) →
      ∃ v, e.program.run stack = (.ok v, [])) ∧
    ∀ n, (e.program.stackAfter stack n).length ≤ e.depth + 1 := by
  simp only [← exists_faultAt?_iff]
  rw [← exists_firstFault?_iff, run_program hfit]
  rcases value_or_breaksOff hfit with ⟨hnone, v, hv⟩ | ⟨path, fault, kept, h⟩
  · rw [hv, hnone]
    refine ⟨by simp, by simp, ?_, length_stackAfter_program hfit stack⟩
    exact fun _ => ⟨v, rfl⟩
  · rw [h.value, h.first]
    refine ⟨by simp, ?_, ?_, length_stackAfter_program hfit stack⟩
    · rintro _ ⟨⟩
      refine ⟨path, kept, rfl, h.here, h.waiting, ?_⟩
      simp only [h.residue, List.append_nil, List.reverse_reverse]
    · intro hnot
      exact absurd rfl (hnot fault)

theorem run_program_two_waiting :
    let e : Expr := .binary .div
      (.binary .add (.literal 1)
        (.binary .mul (.negate (.literal 2)) (.binary .rem (.literal 7) (.literal 0))))
      (.binary .div (.literal 3) (.literal 0))
    e.program.run [9, 9] = (.error (.fault .remainderByZero), [-2, 1]) ∧
      ∀ n, (e.program.stackAfter [9, 9] n).length ≤ 5 := by
  intro e
  obtain ⟨hfaults, hfirst, -, hheight⟩ := run_program_settles e (by decide) [9, 9]
  obtain ⟨fault, hfault⟩ := hfaults.mpr
    ⟨[.left, .right, .right], .rem, .literal 7, .literal 0, 7, rfl, .inr rfl, rfl, rfl⟩
  obtain ⟨path, kept, hpath, hhere, hwaiting, hkept⟩ := hfirst fault hfault
  have hplace : e.firstFault? = some [.left, .right, .right] := by decide
  rw [hplace, Option.some.injEq] at hpath
  subst hpath
  cases hhere
  have hvalues : [1, -2].map .ok = kept.map (Except.ok (ε := Halt)) := hwaiting
  rw [List.map_inj_right fun _ _ => Except.ok.inj] at hvalues
  refine ⟨Prod.ext hfault ?_, hheight⟩
  rw [← List.reverse_reverse (e.program.run [9, 9]).2, hkept, ← hvalues]
  rfl

end Expr

end Arith64

import TapeLang.Machine

/-!
# TapeLang.Counting — an interpreter with a step counter

`Interpreter` is given as many steps as its limit allows. This one counts
the steps that it has made, in a register of 64 bits that wraps, and
compares the register with its limit: before each instruction, and inside a
search behind each stride. Each of its loops is given fuel, and there is no
result if one of them needs more.

* `CountingInterpreter.check` — one more step, if the limit allows it;
* `CountingInterpreter.search` — the loop of a search;
* `CountingInterpreter.runFrom` — the loop over the instructions;
* `CountingInterpreter.run?` — a run on an interpreter that may have run
  before;
* `CountingInterpreter.runAll?` — several runs on one interpreter.
-/

namespace TapeLang

variable {σ : Type}

/-- An interpreter: its step limit, the state that its last run left, and
the steps that this run has counted. -/
structure CountingInterpreter (σ : Type) where
  limit : Option UInt64
  state : State σ
  steps : UInt64

namespace CountingInterpreter

/-- An interpreter that has not run yet. -/
def fresh (limit : Option UInt64) (w : σ) : CountingInterpreter σ :=
  { limit, state := State.initial w, steps := 0 }

/-- The interpreter in which the next run begins. -/
@[inline] def reset (vm : CountingInterpreter σ) : CountingInterpreter σ :=
  { vm with state := vm.state.reset, steps := 0 }

/-- The register counts on. -/
@[inline] def tick (vm : CountingInterpreter σ) : CountingInterpreter σ :=
  { vm with steps := vm.steps + 1 }

/-- Counts one more step, and fails if the limit has been exceeded. -/
@[inline] def check (vm : CountingInterpreter σ) : Option RuntimeError × CountingInterpreter σ :=
  let vm := vm.tick
  match vm.limit with
  | some m => if m < vm.steps then (some (.stepLimit m.toNat), vm) else (none, vm)
  | none => (none, vm)

/-- Shifts the head by `stride` until the current cell is zero. Every stride
is counted behind it. -/
def search (stride : Int32) (ip : Nat) : (fuel : Nat) → CountingInterpreter σ →
    Option (Option RuntimeError × CountingInterpreter σ)
  | 0, _ => none
  | fuel + 1, vm =>
    match Tape.cell? vm.state.head with
    | none => some (some (.offTape vm.state.head ip), vm)
    | some i =>
      if vm.state.tape.get i = 0 then some (none, vm)
      else
        match check { vm with state := vm.state.shift stride } with
        | (some e, vm) => some (some e, vm)
        | (none, vm) => search stride ip fuel vm

/-- Counts and executes one instruction after another, from `ip` on. -/
@[specialize] def runFrom [Writer σ] (p : Program) : (fuel ip : Nat) → CountingInterpreter σ →
    Option (Option RuntimeError × CountingInterpreter σ)
  | 0, _, _ => none
  | fuel + 1, ip, vm =>
    match vm.check with
    | (some e, vm) => some (some e, vm)
    | (none, vm) =>
      match p.fetch ip with
      | .seek stride => do
        match ← search stride ip fuel vm with
        | (some e, vm) => some (some e, vm)
        | (none, vm) => runFrom p fuel (ip + 1) vm
      | _ =>
        match p.step ip vm.state with
        | .running ip s => runFrom p fuel ip { vm with state := s }
        | .ended r => some (r.failure, { vm with state := r.state })

/-- A run on an interpreter, which is reset first. -/
@[specialize] def run? [Writer σ] (vm : CountingInterpreter σ) (fuel : Nat) (p : Program) :
    Option (Option RuntimeError × CountingInterpreter σ) :=
  runFrom p fuel 0 vm.reset

/-- Runs one after another on one interpreter, as in
`Interpreter.runAll?`. -/
@[specialize] def runAll? [Writer σ] (fuel : Nat) :
    CountingInterpreter σ → List (Except CompileError Program) →
      Option (List (Except CompileError (Result σ)) × CountingInterpreter σ)
  | vm, [] => some ([], vm)
  | vm, .error e :: rest =>
    (runAll? fuel vm rest).map fun (results, vm) => (.error e :: results, vm)
  | vm, .ok p :: rest =>
    match vm.run? fuel p with
    | none => none
    | some (failure, vm) =>
      (runAll? fuel vm rest).map fun (results, vm') => (.ok ⟨failure, vm.state⟩ :: results, vm')

end CountingInterpreter

end TapeLang

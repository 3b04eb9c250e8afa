import FactorMachine.Proofs.Assembly.Feasible

/-!
# FactorMachine — assembler calls that are refused

A call of the assembler carries out one statement, or several in a row, and a call that fails may
have carried out some of its statements before. Whoever goes on after such a call wants to know what
it has left. Most calls leave nothing: their encodings are made before anything is appended, and in
a transfer nothing can fail but the push of the label, which comes first. Opcodes in a row are
emitted one by one, so those before the first one that cannot be emitted are there.

Nothing is said here about a label that is defined a second time: such calls are left where they
are.

## Results

* `eq_of_perform_error`    — a statement that fails leaves nothing, unless it defines a label.
* `afterAll_remains`       — what a refused call has left.
* `refused_calls_replaced` — a sequence of calls without those that were refused.
-/

namespace FactorMachine

namespace Assembler

/-- A call of the assembler. -/
inductive Call where
  | one (s : Statement)
  | ops (opcodes : List Opcode)
  | jumpTo (label : String)
  | callTo (label : String)
  | branchIfFalse (label : String)
  deriving DecidableEq, Repr

namespace Call

/-- The statements that a call carries out, up to the first that fails. -/
def statements : Call → List Statement
  | one s => [s]
  | ops opcodes => Statement.ops opcodes
  | jumpTo label => Statement.jumpTo label
  | callTo label => Statement.callTo label
  | branchIfFalse label => Statement.branchIfFalse label

/-- The calls that have the effect of a refused one: opcodes in a row up to the first that cannot be
emitted, and otherwise none. A definition of a label stays as it is. -/
def remains : Call → List Call
  | ops opcodes => [ops (opcodes.takeWhile (· != .push))]
  | one (.label name) => [one (.label name)]
  | _ => []

end Call

def answer (a : Assembler) (c : Call) : EStateM.Result AssemblyError Assembler Unit :=
  (performAll c.statements).run a

def accepts (a : Assembler) (c : Call) : Bool :=
  match a.answer c with
  | .ok _ _ => true
  | .error _ _ => false

/-- The assembler after a call, whether it is refused or not. -/
def after (a : Assembler) (c : Call) : Assembler := stateAfter (a.answer c)

def afterAll (calls : List Call) (a : Assembler) : Assembler := calls.foldl after a

/-- The calls that are refused when it comes to them. -/
def refused : List Call → Assembler → List Call
  | [], _ => []
  | c :: rest, a => (if a.accepts c then [] else [c]) ++ refused rest (a.after c)

/-- The same calls with others in place of those that are refused. -/
def replaceRefused (others : Call → List Call) : List Call → Assembler → List Call
  | [], _ => []
  | c :: rest, a =>
    (if a.accepts c then [c] else others c) ++ replaceRefused others rest (a.after c)

variable {a b : Assembler} {s : Statement} {e : AssemblyError} {c : Call} {calls : List Call}

-- ---------------------------------------------------------------------------
-- What a refused call has left
-- ---------------------------------------------------------------------------

theorem eq_of_appendEncoded_error {encoded : Except ChunkError Chunk}
    (h : (appendEncoded encoded).run a = .error e b) : b = a := by
  cases encoded with
  | ok c => cases h
  | error cause =>
    cases h
    rfl

/-- A statement that fails leaves nothing, unless it defines a label. -/
theorem eq_of_perform_error (h : (perform s).run a = .error e b)
    (hLabel : s.label? = none) : b = a := by
  cases s with
  | raw chunk => cases h
  | op op => exact eq_of_appendEncoded_error h
  | push value => exact eq_of_appendEncoded_error h
  | data value => exact eq_of_appendEncoded_error h
  | label name => cases hLabel
  | pushLabel name =>
    have hPush : (perform (.pushLabel name)).run a = _ := run_bind_ok (EStateM.run_get a)
    rw [hPush] at h
    split at h
    · exact eq_of_appendEncoded_error h
    · -- once the placeholder is there, nothing fails any more
      rcases run_bind_eq_error h with hAppend | ⟨_, _, -, hRest⟩
      · exact eq_of_appendEncoded_error hAppend
      · cases hRest
  | pushSlot slot =>
    rcases run_bind_eq_error h with hAppend | ⟨_, _, -, hRest⟩
    · exact eq_of_appendEncoded_error hAppend
    · cases hRest

theorem accepts_eq_true_iff : a.accepts c = true ↔ ∃ b, a.answer c = .ok () b := by
  unfold accepts
  cases a.answer c with
  | ok _ b => exact ⟨fun _ => ⟨b, rfl⟩, fun _ => rfl⟩
  | error e b => exact ⟨nofun, nofun⟩

/-- Opcodes in a row are emitted up to the first that cannot be. -/
theorem answer_ops (opcodes : List Opcode) (a : Assembler) :
    a.answer (.ops (opcodes.takeWhile (· != .push))) = .ok () (a.after (.ops opcodes)) := by
  induction opcodes generalizing a with
  | nil => rfl
  | cons op rest ih =>
    by_cases hOp : op = .push
    · subst hOp
      rfl
    · obtain ⟨address, b, hFirst⟩ : ∃ address b, (perform (.op op)).run a = .ok address b :=
        exists_appendEncoded (exists_encodeOpcode_iff.mpr hOp) a
      have hTake : (op :: rest).takeWhile (· != .push) = op :: rest.takeWhile (· != .push) :=
        List.takeWhile_cons_of_pos (bne_iff_ne.mpr hOp)
      have hAfter : a.after (.ops (op :: rest)) = b.after (.ops rest) :=
        congrArg stateAfter (run_bind_ok hFirst)
      rw [hTake, hAfter, ← ih b]
      exact run_bind_ok hFirst

/-- Where nothing can fail but the first statement, and this one is no label, a refused call has left
nothing. -/
theorem after_of_refused (opcodes : List Opcode)
    (hStatements : c.statements = s :: Statement.ops opcodes) (hOpcodes : .push ∉ opcodes)
    (hLabel : s.label? = none) (hRefused : a.accepts c = false) : a.after c = a := by
  have hAnswer : a.answer c =
      (perform s >>= fun _ => performAll (Statement.ops opcodes)).run a := by
    rw [answer, hStatements]
    rfl
  cases hRun : (perform s).run a with
  | error e b =>
    rw [after, hAnswer, run_bind_error hRun]
    exact eq_of_perform_error hRun hLabel
  | ok address b =>
    have hRest := answer_ops opcodes b
    have hAll : opcodes.takeWhile (· != .push) = opcodes := by
      rw [List.takeWhile_eq_self_iff]
      intro op hMem
      exact bne_iff_ne.mpr fun hPush => hOpcodes (hPush ▸ hMem)
    rw [hAll] at hRest
    rw [Bool.eq_false_iff] at hRefused
    exact absurd (accepts_eq_true_iff.mpr ⟨_, hAnswer.trans ((run_bind_ok hRun).trans hRest)⟩)
      hRefused

/-- A refused call has left what the calls in place of it do. -/
theorem afterAll_remains (hRefused : a.accepts c = false) : afterAll c.remains a = a.after c := by
  cases c with
  | one s =>
    cases s with
    | label name => rfl
    | _ => exact (after_of_refused [] rfl (by decide) rfl hRefused).symm
  | ops opcodes =>
    have hRemains : afterAll (Call.ops opcodes).remains a =
        stateAfter (a.answer (.ops (opcodes.takeWhile (· != .push)))) := rfl
    rw [hRemains, answer_ops]
    rfl
  | jumpTo label =>
    exact (after_of_refused [.jump] rfl (by decide) rfl hRefused).symm
  | callTo label =>
    exact (after_of_refused [.call] rfl (by decide) rfl hRefused).symm
  | branchIfFalse label =>
    exact (after_of_refused [.swap, .jumpIfZero] rfl (by decide) rfl hRefused).symm

/-- Of the calls in place of a refused one, only a definition of a label is refused in turn. -/
theorem refused_remains (c : Call) (a : Assembler) :
    ∀ c' ∈ refused c.remains a, ∃ name, c' = .one (.label name) := by
  intro c' hMem
  cases c with
  | one s =>
    cases s with
    | label name =>
      refine ⟨name, ?_⟩
      rw [Call.remains, refused, refused, List.append_nil] at hMem
      split at hMem
      · cases hMem
      · exact List.mem_singleton.mp hMem
    | _ => cases hMem
  | ops opcodes =>
    have hAccepted : a.accepts (.ops (opcodes.takeWhile (· != .push))) = true :=
      accepts_eq_true_iff.mpr ⟨_, answer_ops opcodes a⟩
    rw [Call.remains, refused, if_pos hAccepted] at hMem
    cases hMem
  | _ => cases hMem

-- ---------------------------------------------------------------------------
-- Sequences of calls
-- ---------------------------------------------------------------------------

theorem afterAll_append (xs ys : List Call) (a : Assembler) :
    afterAll (xs ++ ys) a = afterAll ys (afterAll xs a) := List.foldl_append

theorem refused_append (xs ys : List Call) (a : Assembler) :
    refused (xs ++ ys) a = refused xs a ++ refused ys (afterAll xs a) := by
  induction xs generalizing a with
  | nil => rfl
  | cons c xs ih =>
    rw [List.cons_append, refused, refused, ih, List.append_assoc]
    rfl

/-- Whether it is refused or not, what is in place of a call leads where the call does. -/
theorem afterAll_replaced (a : Assembler) (c : Call) :
    afterAll (if a.accepts c then [c] else c.remains) a = a.after c := by
  split
  · rfl
  · rename_i hRefused
    exact afterAll_remains (Bool.eq_false_iff.mpr hRefused)

theorem afterAll_replaceRefused (calls : List Call) (a : Assembler) :
    afterAll (replaceRefused Call.remains calls a) a = afterAll calls a := by
  induction calls generalizing a with
  | nil => rfl
  | cons c rest ih =>
    rw [replaceRefused, afterAll_append, afterAll_replaced, ih]
    rfl

/-- Of the calls that are left, only definitions of labels are refused. -/
theorem refused_replaceRefused (calls : List Call) (a : Assembler) :
    ∀ c ∈ refused (replaceRefused Call.remains calls a) a, ∃ name, c = .one (.label name) := by
  induction calls generalizing a with
  | nil => exact nofun
  | cons c rest ih =>
    intro c' hMem
    rw [replaceRefused, refused_append, afterAll_replaced] at hMem
    rcases List.mem_append.mp hMem with hFirst | hRest
    · split at hFirst
      · rename_i hAccepted
        rw [refused, if_pos hAccepted] at hFirst
        cases hFirst
      · exact refused_remains c a c' hFirst
    · exact ih (a.after c) c' hRest

/-- **Refused calls leave nothing but opcodes.** Take any calls, and leave out those that are
refused, except that of opcodes in a row those before the first push stay, and that definitions of
labels stay where they are. Then no call is refused any more but a definition of a label, and the
program has come to the same address, with the same labels and the same outcome for whatever slots
are selected. -/
theorem refused_calls_replaced (calls : List Call) (a : Assembler) :
    let kept := replaceRefused Call.remains calls a
    (∀ c ∈ refused kept a, ∃ name, c = .one (.label name)) ∧
      (afterAll kept a).here = (afterAll calls a).here ∧
      (∀ name, (afterAll kept a).addressOf name = (afterAll calls a).addressOf name) ∧
      ∀ selected, (afterAll kept a).finish selected = (afterAll calls a).finish selected := by
  refine ⟨refused_replaceRefused calls a, ?_⟩
  rw [afterAll_replaceRefused]
  exact ⟨rfl, fun _ => rfl, fun _ => rfl⟩

/-- To leave out every refused call is not the same: opcodes in a row are refused for the push among
them, with the addition before it in the program, and the label that is defined again has moved there,
where the push of it refers to. -/
theorem refused_calls_not_dropped :
    let calls : List Call := [.one (.label "a"), .ops [.add, .push], .one (.label "a"),
      .one (.pushLabel "a")]
    let kept := replaceRefused (fun _ => []) calls .empty
    kept = [.one (.label "a"), .one (.pushLabel "a")] ∧
      (afterAll calls .empty).here = 2 ∧ (afterAll kept .empty).here = 1 ∧
      (afterAll calls .empty).addressOf "a" = some 1 ∧
      (afterAll kept .empty).addressOf "a" = some 0 ∧
      (afterAll calls .empty).finish [] ≠ (afterAll kept .empty).finish [] := by
  decide +kernel

end Assembler

end FactorMachine

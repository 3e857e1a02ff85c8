import MxTasking.Verified.TransitionSystem

/-!
# Parties with mailboxes

Parties that send each other messages, with a mailbox for each sender, each receiver and each class
of messages.  What is in one mailbox is received in the order it was sent; the mailboxes are
independent of each other.

What the parties do with their messages is given by a `Program`; how the messages travel is
not part of it, so the same program also runs over other ways of delivery.
-/

namespace MxTasking.Verified

/-- The behaviour of parties that send each other messages, one atomic step at a time. -/
structure Program (ι σ τ ε : Type*) where
  /-- The party has nothing to do but to receive. -/
  idle : σ → ι → Prop
  receive : σ → (source target : ι) → τ → ε → σ → Prop
  /-- A step of a party, in which it may send one message. -/
  work : σ → (party : ι) → ε → σ → Option (ι × τ) → Prop

/-- The parties do not keep messages waiting: one that is idle receives any message, and only then,
and what one party does leaves the others busy or idle as they are. -/
structure Program.Prompt {ι σ τ ε : Type*} (prog : Program ι σ τ ε) : Prop where
  receives : ∀ {program target} source message, prog.idle program target →
    ∃ e program', prog.receive program source target message e program'
  waits : ∀ {program source target message e program'},
    prog.receive program source target message e program' → prog.idle program target
  works : ∀ {program party e program' message},
    prog.work program party e program' message → ¬ prog.idle program party
  receive_other : ∀ {program source target message e program'},
    prog.receive program source target message e program' → ∀ party ≠ target,
      prog.idle program party → prog.idle program' party
  work_other : ∀ {program party e program' message},
    prog.work program party e program' message → ∀ party' ≠ party,
      prog.idle program party' → prog.idle program' party'

namespace Mailboxes

variable {ι σ τ ε κ : Type*} [DecidableEq ι] [DecidableEq κ]

/-- The state of the program, and the messages on their way by sender, receiver and class. -/
structure State (ι σ τ κ : Type*) where
  program : σ
  boxes : ι × ι × κ → List τ

variable (kind : τ → κ)

/-- A message is sent. -/
def post (boxes : ι × ι × κ → List τ) (source target : ι) (message : τ) : ι × ι × κ → List τ :=
  Function.update boxes (source, target, kind message)
    (boxes (source, target, kind message) ++ [message])

/-- What a step sends. -/
def posted (boxes : ι × ι × κ → List τ) (source : ι) : Option (ι × τ) → ι × ι × κ → List τ
  | none => boxes
  | some (target, message) => post kind boxes source target message

inductive Step (prog : Program ι σ τ ε) : State ι σ τ κ → ε → State ι σ τ κ → Prop where
  | receive {s : State ι σ τ κ} {source target : ι} {message : τ} {rest : List τ} {e : ε}
      {program : σ} : s.boxes (source, target, kind message) = message :: rest →
      prog.receive s.program source target message e program →
      Step prog s e ⟨program, Function.update s.boxes (source, target, kind message) rest⟩
  | work {s : State ι σ τ κ} {party : ι} {e : ε} {program : σ} {message : Option (ι × τ)} :
      prog.work s.program party e program message →
      Step prog s e ⟨program, posted kind s.boxes party message⟩

/-- The messages that are sent before the first step. -/
def start (program : σ) (sent : List (ι × ι × τ)) : State ι σ τ κ :=
  ⟨program, sent.foldl
    (fun boxes (source, target, message) => post kind boxes source target message) fun _ => []⟩

theorem boxes_start_concat (program : σ) (sent : List (ι × ι × τ)) (source target : ι)
    (message : τ) : (start kind program (sent ++ [(source, target, message)])).boxes =
      post kind (start kind program sent).boxes source target message := by
  rw [start, List.foldl_append]
  rfl

end Mailboxes

end MxTasking.Verified

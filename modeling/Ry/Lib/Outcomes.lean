import Mathlib.Data.List.Basic

/-! # Outcomes of code that may end early

The outcomes of a piece of code with free choices, as a list: it completes with a truth value in
a state, it leaves the code around it, or it has come to a place one looks for.  Sequencing goes
on from the completed ones only.
-/

inductive Outcome (S R : Type)
  | done (truth : Bool) (state : S)
  | left
  | reached (place : R)
deriving DecidableEq

namespace Outcome

variable {S R : Type}

def andThen (os : List (Outcome S R)) (f : Bool → S → List (Outcome S R)) : List (Outcome S R) :=
  os.flatMap fun
    | .done b s => f b s
    | o => [o]

/-- Completion with either truth value. -/
def either (s : S) : List (Outcome S R) := [.done true s, .done false s]

theorem mem_andThen {os : List (Outcome S R)} {f : Bool → S → List (Outcome S R)} {b : Bool} {s : S}
    {o : Outcome S R} (hdone : .done b s ∈ os) (ho : o ∈ f b s) : o ∈ andThen os f :=
  List.mem_flatMap.mpr ⟨.done b s, hdone, ho⟩

theorem reached_andThen {os : List (Outcome S R)} {place : R} (h : .reached place ∈ os)
    (f : Bool → S → List (Outcome S R)) : .reached place ∈ andThen os f :=
  List.mem_flatMap.mpr ⟨.reached place, h, List.mem_singleton.mpr rfl⟩

@[simp] theorem done_mem_either (b : Bool) (s : S) : .done b s ∈ (either s : List (Outcome S R)) := by
  cases b <;> simp [either]

end Outcome

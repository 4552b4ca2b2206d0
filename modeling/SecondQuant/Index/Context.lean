import SecondQuant.Index

/-!
# Drawing fresh indices

An index context counts, for each space, how many dummies have been handed out.  Everything that
needs fresh indices is a state computation over a context, so two computations run one after the
other on the same context never hand out the same index.

The counts and the numbers of indices are natural numbers here.  The program counts in 32 bits, so
what follows is about contexts from which fewer than `2 ^ 32` dummies of each space are drawn:
overflow of a count is outside the model.

* `draw_run` — a draw in a space hands out the next number there and counts it.
* `drawn_record_of_ne` — the other spaces keep their counts.
-/

namespace SecondQuant

/-- How many dummies of each space have been handed out.  The program keeps these counts in 32 bits;
a context that has handed out `2 ^ 32` dummies of one space is outside the model. -/
structure IndexContext where
  occupied : Nat
  virtual : Nat
  general : Nat
  photon : Nat
  deriving DecidableEq

namespace IndexContext

/-- The context from which nothing has been drawn. -/
def empty : IndexContext := ⟨0, 0, 0, 0⟩

/-- How many indices of a space have been handed out. -/
def drawn (c : IndexContext) : Space → Nat
  | .occupied => c.occupied
  | .virtual => c.virtual
  | .general => c.general
  | .photon => c.photon

/-- The context after one more index of a space. -/
def record (c : IndexContext) : Space → IndexContext
  | .occupied => { c with occupied := c.occupied + 1 }
  | .virtual => { c with virtual := c.virtual + 1 }
  | .general => { c with general := c.general + 1 }
  | .photon => { c with photon := c.photon + 1 }

@[simp] theorem drawn_record_self (c : IndexContext) (s : Space) :
    (c.record s).drawn s = c.drawn s + 1 := by cases s <;> rfl

theorem drawn_record_of_ne (c : IndexContext) {s t : Space} (h : t ≠ s) :
    (c.record s).drawn t = c.drawn t := by
  cases s <;> cases t <;> simp_all [record, drawn]

end IndexContext

/-- A computation that may draw fresh indices. -/
abbrev Drawing := StateM IndexContext

namespace Drawing

/-- The next dummy of a space; numbers start at 1. -/
def draw (s : Space) : Drawing Index := fun c =>
  (Index.dummy s (c.drawn s + 1), c.record s)

/-- One fresh dummy for each space of a list, in order. -/
def drawEach : List Space → Drawing (List Index)
  | [] => pure []
  | s :: ss => do
      let i ← draw s
      let is ← drawEach ss
      return i :: is

/-- The next `n` dummies of a space. -/
def drawMany (s : Space) (n : Nat) : Drawing (List Index) :=
  drawEach (List.replicate n s)

theorem draw_run (s : Space) (c : IndexContext) :
    (draw s).run c = (Index.dummy s (c.drawn s + 1), c.record s) := rfl

end Drawing

end SecondQuant

import Potts.Random.Source

/-!
# Cyclic sources

A source that repeats a given list of words for ever. It makes a run follow a script.
-/

namespace Potts

/-- A place in the endless repetition of a list of words. -/
structure Cycle where
  words : List UInt64
  position : Nat

namespace Cycle

def ofList (words : List UInt64) : Cycle := ⟨words, 0⟩

/-- The next word; the repetition of the empty list is zero for ever. -/
def word (c : Cycle) : UInt64 × Cycle :=
  (c.words[c.position % c.words.length]?.getD 0, { c with position := c.position + 1 })

/-- The remainder of the next word by `n`. -/
def below (c : Cycle) (n : Nat) : Nat × Cycle :=
  let (w, c) := c.word
  (w.toNat % n, c)

instance : RandomSource Cycle where
  word := word
  below := below
  below_lt _ _ hn := Nat.mod_lt _ hn

end Cycle

end Potts

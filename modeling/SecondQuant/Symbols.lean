/-!
# The symbols of the theory

The names that the builders and contractions give to tensors and operators, with the way they are
written and what they stand for.
-/

namespace SecondQuant

/-- A symbol, the way it is written, and its meaning. -/
structure Symbol where
  name : String
  form : String
  meaning : String
  deriving DecidableEq

namespace Symbol

/-- Every symbol of the theory. -/
def all : List Symbol := [
  ⟨"A", "A^\x7ba…\x7d_\x7bi…\x7d",
    "amplitude d'excitation (rang > 0) ou de désexcitation (rang < 0)"⟩,
  ⟨"t", "t^\x7ba…\x7d_\x7bi…\x7d",
    "amplitude de cluster T(n)"⟩,
  ⟨"f", "f^\x7bp\x7d_\x7bq\x7d",
    "opérateur de Fock, hamiltonien à un corps"⟩,
  ⟨"g", "\\bar\x7bg\x7d^\x7bpq\x7d_\x7brs\x7d",
    "intégrales à deux corps antisymétrisées (préfacteur 1/4)"⟩,
  ⟨"h", "\\bar\x7bh\x7d^\x7bp…\x7d_\x7bq…\x7d",
    "terme générique à n corps (n ≥ 3)"⟩,
  ⟨"ω", "\\omega^\x7bx\x7d_\x7by\x7d",
    "énergie des modes photoniques"⟩,
  ⟨"w", "\\hat\x7bw\x7d^\x7bx…\x7d_\x7by…\x7d",
    "terme bosonique à n quanta (n ≥ 2), symétrique"⟩,
  ⟨"d", "d^\x7bpx\x7d_\x7bq\x7d, d^\x7bp\x7d_\x7bqx\x7d",
    "couplage électron-photon (émission, absorption)"⟩,
  ⟨"δ", "\\delta^\x7bp\x7d_\x7bq\x7d",
    "contraction en base orthonormée"⟩,
  ⟨"s", "s^\x7bp\x7d_\x7bq\x7d",
    "recouvrement (base non orthonormée)"⟩,
  ⟨"a", "a^\x7b\\dagger\x7d_\x7bp\x7d, a_\x7bp\x7d",
    "création / annihilation fermionique"⟩,
  ⟨"b", "b^\x7b\\dagger\x7d_\x7bx\x7d, b_\x7bx\x7d",
    "création / annihilation bosonique"⟩]

end Symbol

end SecondQuant

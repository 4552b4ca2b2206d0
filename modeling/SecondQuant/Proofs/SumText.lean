import SecondQuant.Proofs.IndexSupport
import SecondQuant.Proofs.TensorText

/-!
# Reading the text of a sum

A canonical tree is written as its terms, each with a sign, a number and a word.  A number 1 in
front of a word is not written, nor is an empty word, but a word begins with a brace and a number
never does; signs and blanks stand between the terms.  So the text of a canonical tree can be read
back.

* `Rational.toList_latex`, `Rational.magnitude_append_inj` — the sign and the magnitude of a number.
* `termBody_append_inj` — a term without its sign.
* `WordSum.toList_latex_toExpr` — a canonical tree is written as its terms.
* `latex_injective` — canonical trees with the same text are the same.
-/

namespace SecondQuant

/-! ## Numbers -/

theorem exists_toDigits_eq_cons (n : ℕ) :
    ∃ c cs, Nat.toDigits 10 n = c :: cs ∧ c.isDigit = true := by
  obtain ⟨c, cs, hcs⟩ := List.exists_cons_of_ne_nil (Nat.toDigits_ne_nil (n := n) (b := 10))
  exact ⟨c, cs, hcs, isDigit_of_mem_toDigits (hcs ▸ List.mem_cons_self)⟩

/-- A number does not begin with any character that is not a digit. -/
theorem toDigits_append_ne_cons {n : ℕ} {c : Char} (hc : c.isDigit = false) (s t : List Char) :
    Nat.toDigits 10 n ++ s ≠ c :: t := by
  obtain ⟨d, ds, hds, hd⟩ := exists_toDigits_eq_cons n
  intro h
  rw [hds, List.cons_append] at h
  rw [(List.cons.inj h).1, hc] at hd
  cases hd

namespace Rational

/-- The sign of a number in its text. -/
def signText (r : ℚ) : List Char :=
  if r < 0 then ['-'] else []

/-- The text of a number without its sign. -/
def magnitude (r : ℚ) : List Char :=
  if r.den = 1 then Nat.toDigits 10 r.num.natAbs
  else "\\frac".toList ++ '\x7b' :: (Nat.toDigits 10 r.num.natAbs ++
    '\x7d' :: '\x7b' :: (Nat.toDigits 10 r.den ++ ['\x7d']))

theorem toList_intText (n : ℤ) :
    (intText n).toList = (if n < 0 then ['-'] else []) ++ Nat.toDigits 10 n.natAbs := by
  cases n with
  | ofNat n => simp [intText, Nat.toList_repr]
  | negSucc n => simp [intText, Nat.toList_repr, Int.negSucc_lt_zero]

/-- A number is written as its sign and its magnitude. -/
theorem toList_latex (r : ℚ) : (Rational.latex r).toList = signText r ++ magnitude r := by
  unfold Rational.latex isInteger signText magnitude
  by_cases hden : r.den = 1
  · simp [hden, toList_intText, Rat.num_neg]
  · by_cases hneg : r < 0
    · simp [hden, hneg, Rat.num_neg, Nat.toList_repr]
    · simp [hden, hneg, Rat.num_neg, Nat.toList_repr]

/-- Whether two numbers differ by their sign only. -/
def SameMagnitude (a b : ℚ) : Prop :=
  a.num.natAbs = b.num.natAbs ∧ a.den = b.den

theorem SameMagnitude.eq {a b : ℚ} (h : SameMagnitude a b) (hsign : a < 0 ↔ b < 0) : a = b := by
  rw [← Rat.num_neg, ← Rat.num_neg] at hsign
  refine Rat.ext ?_ h.2
  have := h.1
  omega

/-- A magnitude begins with a digit or with the command of fractions. -/
theorem magnitude_append_ne_cons (r : ℚ) {c : Char} (hc : c.isDigit = false) (hslash : c ≠ '\\')
    (s t : List Char) : magnitude r ++ s ≠ c :: t := by
  unfold magnitude
  split
  · exact toDigits_append_ne_cons hc s t
  · intro h
    exact hslash (List.cons.inj h).1.symm

/-- A magnitude can be read off a text that does not go on with a digit. -/
theorem magnitude_append_inj {a b : ℚ} {s t : List Char} (hs : NotAhead Char.isDigit s)
    (ht : NotAhead Char.isDigit t) (h : magnitude a ++ s = magnitude b ++ t) :
    SameMagnitude a b ∧ s = t := by
  have hslash : ∀ {n u v}, Nat.toDigits 10 n ++ u ≠ '\\' :: v :=
    toDigits_append_ne_cons (by decide) _ _
  unfold magnitude at h
  by_cases ha : a.den = 1 <;> by_cases hb : b.den = 1
  · rw [if_pos ha, if_pos hb] at h
    obtain ⟨hnum, hst⟩ := toDigits_append_inj hs ht h
    exact ⟨⟨hnum, ha.trans hb.symm⟩, hst⟩
  · rw [if_pos ha, if_neg hb] at h
    exact absurd h hslash
  · rw [if_neg ha, if_pos hb] at h
    exact absurd h.symm hslash
  · rw [if_neg ha, if_neg hb] at h
    simp only [List.append_assoc, List.cons_append, List.append_cancel_left_eq, List.cons.injEq,
      true_and] at h
    obtain ⟨hnum, hrest⟩ := toDigits_append_inj (notAhead_isDigit_closing _)
      (notAhead_isDigit_closing _) h
    obtain ⟨hden, hst⟩ := toDigits_append_inj (notAhead_isDigit_closing _)
      (notAhead_isDigit_closing _) (by simpa using hrest)
    exact ⟨⟨hnum, hden⟩, by simpa using hst⟩

theorem magnitude_abs (r : ℚ) : magnitude (Rational.abs r) = magnitude r := by
  unfold Rational.abs
  split
  · simp [magnitude]
  · rfl

end Rational

/-! ## Terms -/

open Rational (signText magnitude SameMagnitude)

instance (a b : ℚ) : Decidable (SameMagnitude a b) :=
  inferInstanceAs (Decidable (_ ∧ _))

/-- The text of a term without its sign: the number 1 in front of letters is not written. -/
def termBody (c : ℚ) (w : Word) : List Char :=
  if w ≠ [] ∧ SameMagnitude c 1 then w.text else magnitude c ++ w.text

/-- Whether a text goes on behind a term: it ends, or with a blank. -/
def FollowsTerm (s : List Char) : Prop :=
  s = [] ∨ ∃ r, s = ' ' :: r

theorem FollowsTerm.head?_ne {s : List Char} (h : FollowsTerm s) : s.head? ≠ some '\x7b' := by
  obtain rfl | ⟨r, rfl⟩ := h
  · exact nofun
  · simp

/-- A word is not a digit, nor is what follows a term. -/
theorem notAhead_text {w : Word} (hw : ∀ t ∈ w, t.IsReadable) {s : List Char}
    (hs : FollowsTerm s) : NotAhead Char.isDigit (w.text ++ s) := by
  by_cases hne : w = []
  · obtain rfl | ⟨r, rfl⟩ := hs
    · simp [hne, Word.text, NotAhead]
    · simp [hne, Word.text, NotAhead]
  · obtain ⟨r, hr⟩ := Word.exists_text_eq_cons hw hne
    simp [hr, NotAhead]

/-- A term without its sign does not begin with a sign. -/
theorem termBody_append_ne_minus (c : ℚ) {w : Word} (hw : ∀ t ∈ w, t.IsReadable)
    (s t : List Char) : termBody c w ++ s ≠ '-' :: t := by
  unfold termBody
  split
  · next h =>
      obtain ⟨r, hr⟩ := Word.exists_text_eq_cons hw h.1
      simp [hr]
  · rw [List.append_assoc]
    exact Rational.magnitude_append_ne_cons c (by decide) (by decide) _ _

/-- A term without its sign can be read off a text, up to the sign of its number. -/
theorem termBody_append_inj {b c : ℚ} {v w : Word} {s t : List Char}
    (hv : ∀ x ∈ v, x.IsReadable) (hw : ∀ x ∈ w, x.IsReadable) (hs : FollowsTerm s)
    (ht : FollowsTerm t) (h : termBody b v ++ s = termBody c w ++ t) :
    SameMagnitude b c ∧ v = w ∧ s = t := by
  unfold termBody at h
  by_cases hb : v ≠ [] ∧ SameMagnitude b 1 <;> by_cases hc : w ≠ [] ∧ SameMagnitude c 1
  · rw [if_pos hb, if_pos hc] at h
    obtain ⟨hvw, hst⟩ := Word.text_append_inj hv hw hs.head?_ne ht.head?_ne h
    exact ⟨⟨hb.2.1.trans hc.2.1.symm, hb.2.2.trans hc.2.2.symm⟩, hvw, hst⟩
  · -- Letters begin with a brace, a number does not.
    rw [if_pos hb, if_neg hc, List.append_assoc] at h
    obtain ⟨r, hr⟩ := Word.exists_text_eq_cons hv hb.1
    rw [hr] at h
    exact absurd h.symm (Rational.magnitude_append_ne_cons c (by decide) (by decide) _ _)
  · rw [if_neg hb, if_pos hc, List.append_assoc] at h
    obtain ⟨r, hr⟩ := Word.exists_text_eq_cons hw hc.1
    rw [hr] at h
    exact absurd h (Rational.magnitude_append_ne_cons b (by decide) (by decide) _ _)
  · rw [if_neg hb, if_neg hc, List.append_assoc, List.append_assoc] at h
    obtain ⟨hbc, hrest⟩ := Rational.magnitude_append_inj (notAhead_text hv hs)
      (notAhead_text hw ht) h
    obtain ⟨hvw, hst⟩ := Word.text_append_inj hv hw hs.head?_ne ht.head?_ne hrest
    exact ⟨hbc, hvw, hst⟩

/-- A term with its sign can be read off a text. -/
theorem signedTerm_append_inj {b c : ℚ} {v w : Word} {s t : List Char}
    (hv : ∀ x ∈ v, x.IsReadable) (hw : ∀ x ∈ w, x.IsReadable) (hs : FollowsTerm s)
    (ht : FollowsTerm t)
    (h : signText b ++ (termBody b v ++ s) = signText c ++ (termBody c w ++ t)) :
    b = c ∧ v = w ∧ s = t := by
  unfold signText at h
  -- Neither body begins with a sign, so both numbers have one or neither has.
  by_cases hb : b < 0 <;> by_cases hc : c < 0
  · rw [if_pos hb, if_pos hc] at h
    obtain ⟨hbc, hvw, hst⟩ := termBody_append_inj hv hw hs ht (List.append_cancel_left h)
    exact ⟨hbc.eq (iff_of_true hb hc), hvw, hst⟩
  · rw [if_pos hb, if_neg hc] at h
    exact absurd h.symm (termBody_append_ne_minus c hw _ _)
  · rw [if_neg hb, if_pos hc] at h
    exact absurd h (termBody_append_ne_minus b hv _ _)
  · rw [if_neg hb, if_neg hc] at h
    obtain ⟨hbc, hvw, hst⟩ := termBody_append_inj hv hw hs ht h
    exact ⟨hbc.eq (iff_of_false hb hc), hvw, hst⟩

/-! ## Sums -/

namespace WordSum

/-- The text of the later terms of a sum. -/
def laterText : WordSum → List Char
  | [] => []
  | t :: p => (Expr.joint t.1).toList ++ (termBody t.1 t.2 ++ laterText p)

/-- The text of a sum of words: that of the number 0 if there are none. -/
def text : WordSum → List Char
  | [] => signText 0 ++ (termBody 0 [] ++ [])
  | t :: p => signText t.1 ++ (termBody t.1 t.2 ++ laterText p)

/-- Whether all letters of a sum can be told from their texts. -/
def IsReadable (p : WordSum) : Prop :=
  ∀ t ∈ p, ∀ x ∈ t.2, x.IsReadable

theorem followsTerm_laterText (p : WordSum) : FollowsTerm p.laterText := by
  cases p with
  | nil => exact .inl rfl
  | cons t p =>
      refine .inr ?_
      rw [laterText, Expr.joint]
      split
      · exact ⟨_, rfl⟩
      · exact ⟨_, rfl⟩

/-- The sign in front of a later term is that of its number. -/
theorem joint_append_inj {b c : ℚ} {s t : List Char}
    (h : (Expr.joint b).toList ++ s = (Expr.joint c).toList ++ t) : (b < 0 ↔ c < 0) ∧ s = t := by
  unfold Expr.joint Rational.isNegative at h
  by_cases hb : b < 0 <;> by_cases hc : c < 0
  · exact ⟨iff_of_true hb hc, by simpa [hb, hc] using h⟩
  · simp [hb, hc] at h
  · simp [hb, hc] at h
  · exact ⟨iff_of_false hb hc, by simpa [hb, hc] using h⟩

theorem laterText_inj {p q : WordSum} (hp : p.IsReadable) (hq : q.IsReadable)
    (h : p.laterText = q.laterText) : p = q := by
  have hblank : ∀ t (p : WordSum), laterText (t :: p) ≠ [] := by
    intro t p
    rw [laterText, Expr.joint]
    split <;> simp
  induction p generalizing q with
  | nil =>
      cases q with
      | nil => rfl
      | cons t q => exact absurd h.symm (hblank t q)
  | cons s p ih =>
      cases q with
      | nil => exact absurd h (hblank s p)
      | cons t q =>
          obtain ⟨hs, hp'⟩ := List.forall_mem_cons.mp hp
          obtain ⟨ht, hq'⟩ := List.forall_mem_cons.mp hq
          rw [laterText, laterText] at h
          obtain ⟨hsign, hbody⟩ := joint_append_inj h
          obtain ⟨hmag, hword, hrest⟩ := termBody_append_inj hs ht (followsTerm_laterText p)
            (followsTerm_laterText q) hbody
          rw [Prod.ext (hmag.eq hsign) hword, ih hp' hq' hrest]

/-- A canonical sum can be read off its text. -/
theorem text_inj {p q : WordSum} (hp : p.IsCanonical) (hq : q.IsCanonical) (hrp : p.IsReadable)
    (hrq : q.IsReadable) (h : p.text = q.text) : p = q := by
  -- The empty sum is written as 0, which is no coefficient of a canonical sum.
  have hnil : ∀ {t : ℚ × Word} {q : WordSum}, IsCanonical (t :: q) → IsReadable (t :: q) →
      text [] ≠ text (t :: q) := by
    intro t q hcan hread h
    obtain ⟨hzero, _, _⟩ := signedTerm_append_inj (List.forall_mem_nil _)
      (hread t List.mem_cons_self) (.inl rfl) (followsTerm_laterText q) h
    exact (Combination.reduced_cons.mp hcan.1).1.1 hzero.symm
  match p, q with
  | [], [] => rfl
  | [], t :: q => exact absurd h (hnil hq hrq)
  | s :: p, [] => exact absurd h.symm (hnil hp hrp)
  | s :: p, t :: q =>
      obtain ⟨hs, hp'⟩ := List.forall_mem_cons.mp hrp
      obtain ⟨ht, hq'⟩ := List.forall_mem_cons.mp hrq
      obtain ⟨hnumber, hword, hrest⟩ := signedTerm_append_inj hs ht (followsTerm_laterText p)
        (followsTerm_laterText q) h
      rw [Prod.ext hnumber hword, laterText_inj hp' hq' hrest]

end WordSum

/-! ## Trees -/

theorem toList_factorsLatex (w : Word) :
    (Expr.factorsLatex (w.map Expr.tensor)).toList = w.text := by
  induction w with
  | nil => simp [Expr.factorsLatex, Word.text]
  | cons t w ih =>
      rw [List.map_cons, Expr.factorsLatex, String.toList_append, ih, Word.text_cons]
      rfl

/-- A monomial with letters is written as its word. -/
theorem toList_latex_monomial {w : Word} (hne : w ≠ []) :
    w.monomial.latex.toList = w.text := by
  match w, hne with
  | [t], _ =>
      rw [Word.text_cons]
      simp [Word.monomial, Expr.ofFactors, Expr.latex, Word.text]
  | s :: t :: w, _ =>
      rw [← toList_factorsLatex]
      rfl

theorem isOne_monomial (w : Word) : w.monomial.isOne = decide (w = []) := by
  match w with
  | [] => rfl
  | [_] => rfl
  | _ :: _ :: _ => rfl

theorem sameMagnitude_one {c : ℚ} : SameMagnitude c 1 ↔ c = 1 ∨ c = -1 := by
  constructor
  · intro h
    rcases lt_or_ge c 0 with hc | hc
    · exact .inr (SameMagnitude.eq (b := -1) (by simpa [SameMagnitude] using h)
        (iff_of_true hc (by norm_num)))
    · exact .inl (h.eq (iff_of_false (not_lt.mpr hc) (by norm_num)))
  · rintro (rfl | rfl) <;> simp [SameMagnitude]

/-- A term is written as its sign and its body. -/
theorem toList_term (c : ℚ) (w : Word) :
    (Expr.coefficientLatex c w.monomial ++
      Expr.behindCoefficient w.monomial w.monomial.latex).toList = signText c ++ termBody c w := by
  rw [String.toList_append, Expr.coefficientLatex, Expr.behindCoefficient, isOne_monomial,
    termBody]
  by_cases hw : w = []
  · simp [hw, Rational.toList_latex, Word.text]
  · by_cases h1 : c = 1
    · simp [hw, h1, toList_latex_monomial hw, signText, sameMagnitude_one]
    · by_cases hm : c = -1
      · have hne : ¬(-1 : ℚ) = 1 := by decide
        simp [hw, hm, hne, toList_latex_monomial hw, signText, sameMagnitude_one]
      · simp [hw, h1, hm, toList_latex_monomial hw, Rational.toList_latex, sameMagnitude_one]

theorem termBody_abs (c : ℚ) (w : Word) : termBody (Rational.abs c) w = termBody c w := by
  unfold termBody
  rw [Rational.magnitude_abs]
  congr 1
  unfold Rational.abs
  split <;> simp [SameMagnitude]

theorem signText_abs (c : ℚ) : signText (Rational.abs c) = [] := by
  unfold Rational.abs
  split
  · next h => exact if_neg (not_lt.mpr (neg_nonneg.mpr h.le))
  · next h => exact if_neg h

theorem toList_laterTermsLatex (p : WordSum) :
    (Expr.laterTermsLatex (p.map fun t => (t.1, t.2.monomial))).toList = p.laterText := by
  induction p with
  | nil => simp [Expr.laterTermsLatex, WordSum.laterText]
  | cons t p ih =>
      have hterm := toList_term (Rational.abs t.1) t.2
      rw [signText_abs, termBody_abs, List.nil_append] at hterm
      rw [List.map_cons, Expr.laterTermsLatex, String.toList_append, ih, String.append_assoc,
        String.toList_append, hterm, WordSum.laterText, List.append_assoc]

/-- A coefficient and a word are written alike as a tree and as the only term of a sum. -/
theorem toList_latex_scaled {c : ℚ} (hc : c ≠ 0) (w : Word) :
    (Expr.scaled c w.monomial).latex.toList = signText c ++ termBody c w := by
  by_cases h1 : c = 1
  · by_cases hw : w = []
    · subst h1 hw
      decide +kernel
    · rw [h1, Expr.one_scaled, toList_latex_monomial hw]
      simp [termBody, hw, signText, sameMagnitude_one]
  · by_cases hw : w = []
    · have hconst : Expr.scaled c (Word.monomial []) = Expr.const c := Expr.scaled_one c
      rw [hw, hconst, Expr.latex, Rational.toList_latex]
      simp [termBody, Word.text]
    · rw [Expr.scaled_monomial hc h1 hw, Expr.latex, Expr.productLatex, String.toList_append,
        toList_factorsLatex, Expr.headLatex, termBody]
      by_cases hm : c = -1
      · simp [hw, hm, signText, sameMagnitude_one]
      · simp [hw, h1, hm, Rational.toList_latex, sameMagnitude_one]

/-- A canonical tree is written as its terms. -/
theorem WordSum.toList_latex_toExpr {p : WordSum} (hp : p.IsCanonical) :
    p.toExpr.latex.toList = p.text := by
  match p, hp with
  | [], _ => decide +kernel
  | [(c, w)], hp =>
      have hc := (Combination.reduced_cons.mp hp.1).1.1
      rw [text, laterText, List.append_nil]
      exact toList_latex_scaled hc w
  | s :: t :: p, _ =>
      show (Expr.coefficientLatex s.1 s.2.monomial ++
        Expr.behindCoefficient s.2.monomial s.2.monomial.latex ++
          Expr.laterTermsLatex ((t :: p).map fun x => (x.1, x.2.monomial))).toList = _
      rw [String.toList_append, toList_term, toList_laterTermsLatex, text, List.append_assoc]

/-! ## Reading back a tree -/

/-- A c-number whose name is a string of letters can be told from its text: a letter is one of the
alphabet or lies beyond the ASCII characters. -/
theorem Tensor.isReadable_of_letters {t : Tensor} (ht : t.isOperator = false)
    (h : ∀ c ∈ t.name.toList, c.isAlpha = true ∨ 128 ≤ c.toNat) : t.IsReadable := by
  have hmarkup : (markup.all fun c => !(c.isAlpha || decide (128 ≤ c.toNat))) = true := by decide
  refine isReadable_iff.mpr (.inr ⟨ht, fun c hc hm => ?_⟩)
  obtain ⟨hascii, hbelow⟩ : c.isAlpha = false ∧ c.toNat < 128 := by
    simpa using List.all_eq_true.mp hmarkup c hm
  obtain halpha | hbeyond := h c hc
  · simp [halpha] at hascii
  · omega

theorem Tensor.isReadable_elementary (l : Ladder) (i : Index) : (elementary l i).IsReadable :=
  ⟨l, i, rfl⟩

/-- Whether all tensors of a tree can be told from their texts. -/
def Expr.IsReadable (e : Expr) : Prop :=
  ∀ t ∈ e.leaves, t.IsReadable

/-- **The text of a canonical tree can be read back.**  Canonical trees with the same LaTeX text are
the same tree, if their c-numbers have names without characters of the markup and their operators
are elementary ones; names made of letters are of this kind. -/
theorem latex_injective :
    (∀ t : Tensor, t.isOperator = false →
      (∀ c ∈ t.name.toList, c.isAlpha = true ∨ 128 ≤ c.toNat) → t.IsReadable) ∧
    (∀ (l : Ladder) (i : Index), (Tensor.elementary l i).IsReadable) ∧
    ∀ d e : Expr, d.IsCanonical → e.IsCanonical → d.IsReadable → e.IsReadable →
      d.latex = e.latex → d = e := by
  refine ⟨fun _ => Tensor.isReadable_of_letters, Tensor.isReadable_elementary, ?_⟩
  intro d e hd he hrd hre h
  have hreadable : ∀ {p : WordSum}, p.IsCanonical → p.toExpr.IsReadable → p.IsReadable := by
    intro p hp hr t ht x hx
    refine hr x ?_
    rw [Expr.leaves_toExpr hp]
    exact List.mem_flatMap.mpr ⟨t, ht, hx⟩
  obtain ⟨p, hp, rfl⟩ := Expr.isCanonical_iff.mp hd
  obtain ⟨q, hq, rfl⟩ := Expr.isCanonical_iff.mp he
  have htext : p.text = q.text := by
    rw [← WordSum.toList_latex_toExpr hp, ← WordSum.toList_latex_toExpr hq, h]
  rw [WordSum.text_inj hp hq (hreadable hp hrd) (hreadable hq hre) htext]

/-- A delta with a coefficient and two operators with the opposite sign. -/
def halfDelta : Expr :=
  .sum [(1 / 2, .tensor (.cNumber "δ" [.dummy .general 1] [.dummy .general 2] .plain)),
    (-1, .prod [.creation .fermion (.dummy .general 1),
      .annihilation .fermion (.dummy .general 2)])]

/-- The difference that has this text is this tree. -/
theorem latex_injective_halfDelta :
    (1 / 2 : ℚ) • Expr.cNumber "δ" [.dummy .general 1] [.dummy .general 2] .plain -
      .creation .fermion (.dummy .general 1) * .annihilation .fermion (.dummy .general 2) =
        halfDelta := by
  obtain ⟨hletters, hoperators, hread⟩ := latex_injective
  have hreadable : ∀ e : Expr, e.leaves = halfDelta.leaves → e.IsReadable := by
    intro e he t ht
    rw [he] at ht
    have hleaves : halfDelta.leaves =
        [.cNumber "δ" [.dummy .general 1] [.dummy .general 2] .plain,
          .elementary ⟨.fermion, .creation⟩ (.dummy .general 1),
          .elementary ⟨.fermion, .annihilation⟩ (.dummy .general 2)] := rfl
    rw [hleaves] at ht
    simp only [List.mem_cons, List.not_mem_nil, or_false] at ht
    rcases ht with rfl | rfl | rfl
    · exact hletters _ rfl (List.forall_mem_singleton.mpr (by decide))
    · exact hoperators _ _
    · exact hoperators _ _
  refine hread _ halfDelta ?_ ?_ (hreadable _ ?_) (hreadable _ rfl) ?_
  · exact Expr.canonical_eq_self_iff.mp (by decide +kernel)
  · exact Expr.canonical_eq_self_iff.mp (by decide +kernel)
  · decide +kernel
  · decide +kernel

end SecondQuant

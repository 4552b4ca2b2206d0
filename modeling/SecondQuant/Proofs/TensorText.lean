import Mathlib.Data.List.Basic
import SecondQuant.Expr.Latex
import SecondQuant.Word

/-!
# Reading the text of a tensor

The LaTeX text of a number, an index or a tensor says where it ends, so it can be read off the front
of a longer text: two texts that go on from two tensors and are the same come from the same tensor
and go on in the same way.  This needs names without the characters of the markup, and operators
that carry the name of their kind.

* `append_inj_of_span` — two texts split at the first character of another kind.
* `toDigits_append_inj`, `Index.latex_append_inj`, `Tensor.accented_append_inj` — the parts of a
  tensor.
* `Tensor.IsReadable`, `Tensor.latex_append_inj` — tensors.
* `Word.text_append_inj` — words.
-/

namespace SecondQuant

/-! ## Splitting a text -/

/-- Whether a text is empty or begins with a character that is not of a kind. -/
def NotAhead (p : Char → Bool) (s : List Char) : Prop :=
  ∀ c ∈ s.head?, p c = false

theorem notAhead_cons {p : Char → Bool} {c : Char} {s : List Char} :
    NotAhead p (c :: s) ↔ p c = false := by
  simp [NotAhead]

/-- Characters of a kind in front of other characters are the same in both splits of a text. -/
theorem append_inj_of_span {p : Char → Bool} {a b s t : List Char} (ha : ∀ c ∈ a, p c = true)
    (hb : ∀ c ∈ b, p c = true) (hs : NotAhead p s) (ht : NotAhead p t) (h : a ++ s = b ++ t) :
    a = b ∧ s = t := by
  induction a generalizing b with
  | nil =>
      cases b with
      | nil => exact ⟨rfl, h⟩
      | cons d b =>
          obtain rfl : s = d :: (b ++ t) := h
          have hd : p d = true := hb d List.mem_cons_self
          rw [notAhead_cons, hd] at hs
          cases hs
  | cons c a ih =>
      obtain ⟨hc, ha⟩ := List.forall_mem_cons.mp ha
      cases b with
      | nil =>
          obtain rfl : c :: (a ++ s) = t := h
          rw [notAhead_cons, hc] at ht
          cases ht
      | cons d b =>
          obtain ⟨rfl, htail⟩ := List.cons.inj h
          obtain ⟨rfl, hst⟩ := ih ha (List.forall_mem_cons.mp hb).2 htail
          exact ⟨rfl, hst⟩

theorem isDigit_of_mem_toDigits {n : Nat} {c : Char} (h : c ∈ Nat.toDigits 10 n) :
    c.isDigit = true :=
  Nat.isDigit_of_mem_toDigits (by decide) (by decide) h

theorem toDigits_inj {m n : Nat} (h : Nat.toDigits 10 m = Nat.toDigits 10 n) : m = n := by
  have hvalue := congrArg (fun cs => Nat.ofDigitChars 10 cs 0) h
  simpa using hvalue

/-- A number can be read off the front of a text that goes on with something else. -/
theorem toDigits_append_inj {m n : Nat} {s t : List Char} (hs : NotAhead Char.isDigit s)
    (ht : NotAhead Char.isDigit t) (h : Nat.toDigits 10 m ++ s = Nat.toDigits 10 n ++ t) :
    m = n ∧ s = t := by
  obtain ⟨hmn, hst⟩ := append_inj_of_span (fun _ => isDigit_of_mem_toDigits)
    (fun _ => isDigit_of_mem_toDigits) hs ht h
  exact ⟨toDigits_inj hmn, hst⟩

theorem notAhead_isDigit_closing (s : List Char) : NotAhead Char.isDigit ('\x7d' :: s) :=
  notAhead_cons.mpr (by decide)

@[simp] theorem toList_braced (s : String) :
    (braced s).toList = '\x7b' :: (s.toList ++ ['\x7d']) := by
  simp [braced]

/-! ## Indices -/

namespace Index

theorem toList_latex (i : Index) :
    i.latex.toList = i.letter :: '_' :: '\x7b' :: (Nat.toDigits 10 i.number ++ ['\x7d']) := by
  simp [latex, Nat.toList_repr]

theorem letter_inj {i j : Index} (h : i.letter = j.letter) :
    i.space = j.space ∧ i.external = j.external := by
  have hchar : ∀ (s s' : Space) (e e' : Bool), letter ⟨s, 0, e⟩ = letter ⟨s', 0, e'⟩ →
      s = s' ∧ e = e' := by
    intro s s' e e'
    cases s <;> cases s' <;> cases e <;> cases e' <;> decide
  exact hchar _ _ _ _ h

theorem letter_ne_brace (i : Index) : i.letter ≠ '\x7b' := by
  have hchar : ∀ (s : Space) (e : Bool), letter ⟨s, 0, e⟩ ≠ '\x7b' := by
    intro s e
    cases s <;> cases e <;> decide
  exact hchar _ _

/-- An index can be read off the front of a text. -/
theorem latex_append_inj {i j : Index} {s t : List Char}
    (h : i.latex.toList ++ s = j.latex.toList ++ t) : i = j ∧ s = t := by
  simp only [toList_latex, List.cons_append, List.append_assoc, List.cons.injEq, true_and,
    List.nil_append] at h
  obtain ⟨hletter, hnumber⟩ := h
  obtain ⟨hspace, hexternal⟩ := letter_inj hletter
  obtain ⟨hnumber, hst⟩ := toDigits_append_inj (notAhead_isDigit_closing s)
    (notAhead_isDigit_closing t) hnumber
  cases i
  cases j
  simp_all

/-- The text of a list of indices. -/
def listText (is : List Index) : List Char :=
  is.flatMap fun i => '\x7b' :: (i.latex.toList ++ ['\x7d'])

/-- A list of indices can be read off a text that goes on with a closing brace. -/
theorem listText_append_inj {is js : List Index} {s t : List Char}
    (h : listText is ++ '\x7d' :: s = listText js ++ '\x7d' :: t) : is = js ∧ s = t := by
  induction is generalizing js with
  | nil =>
      cases js with
      | nil => exact ⟨rfl, (List.cons.inj h).2⟩
      | cons j js => simp [listText] at h
  | cons i is ih =>
      cases js with
      | nil => simp [listText] at h
      | cons j js =>
          simp only [listText, List.flatMap_cons, List.cons_append, List.append_assoc,
            List.cons.injEq, true_and] at h
          obtain ⟨rfl, hrest⟩ := latex_append_inj h
          obtain ⟨rfl, hst⟩ := ih (List.cons.inj hrest).2
          exact ⟨rfl, hst⟩

end Index

namespace Tensor

theorem toList_script (mark : String) (is : List Index) :
    (script mark is).toList =
      if is = [] then [] else mark.toList ++ '\x7b' :: (Index.listText is ++ ['\x7d']) := by
  unfold script
  cases is with
  | nil => rfl
  | cons i is => simp [Index.listText, List.flatMap_map]

/-- An index list can be read off a text that does not go on with its mark. -/
theorem script_append_inj {mark : String} {m : Char} (hmark : mark.toList = [m])
    {is js : List Index} {s t : List Char} (hs : s.head? ≠ some m) (ht : t.head? ≠ some m)
    (h : (script mark is).toList ++ s = (script mark js).toList ++ t) : is = js ∧ s = t := by
  rw [toList_script, toList_script, hmark] at h
  by_cases hi : is = [] <;> by_cases hj : js = []
  · rw [if_pos hi, if_pos hj] at h
    exact ⟨hi.trans hj.symm, h⟩
  · rw [if_pos hi, if_neg hj] at h
    exact absurd (congrArg List.head? h) hs
  · rw [if_neg hi, if_pos hj] at h
    exact absurd (congrArg List.head? h).symm ht
  · simp only [hi, hj, if_false, List.append_assoc, List.cons_append, List.nil_append,
      List.cons.injEq, true_and] at h
    exact Index.listText_append_inj h

/-- The text behind the symbol of a tensor. -/
def scriptText (upper lower : List Index) : List Char :=
  (script "^" upper).toList ++ (script "_" lower).toList ++ ['\x7d']

/-- Both index lists can be read off the text behind a symbol. -/
theorem scriptText_append_inj {u u' l l' : List Index} {s t : List Char}
    (h : scriptText u l ++ s = scriptText u' l' ++ t) : u = u' ∧ l = l' ∧ s = t := by
  have hahead : ∀ (l : List Index) (s : List Char),
      ((script "_" l).toList ++ '\x7d' :: s).head? ≠ some '^' := by
    intro l s
    rw [toList_script]
    by_cases hl : l = [] <;> simp [hl]
  simp only [scriptText, List.append_assoc, List.singleton_append] at h
  obtain ⟨hupper, hrest⟩ := script_append_inj (by rfl) (hahead l s) (hahead l' t) h
  obtain ⟨hlower, hst⟩ := script_append_inj (m := '_') (by rfl) (by simp) (by simp) hrest
  exact ⟨hupper, hlower, (List.cons.inj hst).2⟩

/-! ## Symbols -/

/-- The characters that the markup gives a meaning to. -/
def markup : List Char :=
  ['\\', '\x7b', '\x7d', '^', '_']

/-- Whether a character stands inside the symbol of a tensor and does not end it. -/
def isSymbolChar (c : Char) : Bool :=
  c ∉ ['\x7b', '\x7d', '^', '_']

/-- Whether a name has no characters of the markup. -/
def IsPlainName (name : String) : Prop :=
  ∀ c ∈ name.toList, c ∉ markup

instance (name : String) : Decidable (IsPlainName name) :=
  List.decidableBAll _ name.toList

theorem IsPlainName.isSymbolChar_latexName {name : String} (h : IsPlainName name) :
    ∀ c ∈ (latexName name).toList, isSymbolChar c = true := by
  have hplain : ∀ c ∈ name.toList, isSymbolChar c = true := by
    intro c hc
    have hmarkup := h c hc
    simp only [markup, List.mem_cons, not_or] at hmarkup
    simp [isSymbolChar, hmarkup]
  unfold latexName
  split_ifs
  · exact List.all_eq_true.mp (by decide)
  · exact List.all_eq_true.mp (by decide)
  · exact List.all_eq_true.mp (by decide)
  · exact List.all_eq_true.mp (by decide)
  · exact hplain

/-- The name that a LaTeX symbol stands for. -/
def nameOfLatex (symbol : String) : String :=
  if symbol = "\\delta" then "δ"
  else if symbol = "\\omega" then "ω"
  else if symbol = "\\epsilon" then "ε"
  else if symbol = "\\lambda" then "λ"
  else symbol

/-- A plain name can be recovered from its symbol. -/
theorem nameOfLatex_latexName {name : String} (h : IsPlainName name) :
    nameOfLatex (latexName name) = name := by
  have hcommand : ∀ command : String, command.toList.head? = some '\\' → name ≠ command := by
    rintro command hhead rfl
    exact h '\\' (List.mem_of_mem_head? hhead) (by decide)
  unfold latexName
  split_ifs with hdelta homega hepsilon hlambda
  · exact hdelta.symm
  · exact homega.symm
  · exact hepsilon.symm
  · exact hlambda.symm
  · rw [nameOfLatex, if_neg (hcommand _ (by decide)), if_neg (hcommand _ (by decide)),
      if_neg (hcommand _ (by decide)), if_neg (hcommand _ (by decide))]

theorem latexName_inj {m n : String} (hm : IsPlainName m) (hn : IsPlainName n)
    (h : (latexName m).toList = (latexName n).toList) : m = n := by
  rw [← nameOfLatex_latexName hm, String.toList_inj.mp h, nameOfLatex_latexName hn]

/-- The accent of a symmetry, without its argument. -/
def accent : Symmetry → List Char
  | .plain => []
  | .antisymmetric => "\\bar".toList
  | .symmetric => "\\hat".toList

theorem toList_accented_of_ne {y : Symmetry} (h : y ≠ .plain) (symbol : String) :
    (accented y symbol).toList = accent y ++ '\x7b' :: (symbol.toList ++ ['\x7d']) := by
  cases y with
  | plain => exact absurd rfl h
  | antisymmetric => simp [accented, accent]
  | symmetric => simp [accented, accent]

theorem isSymbolChar_accent (y : Symmetry) : ∀ c ∈ accent y, isSymbolChar c = true :=
  List.all_eq_true.mp (by cases y <;> decide)

theorem accent_inj {y z : Symmetry} (h : accent y = accent z) : y = z := by
  revert h
  cases y <;> cases z <;> decide

/-- Whether a text goes on behind a symbol: with an index list or the closing brace. -/
def FollowsSymbol (s : List Char) : Prop :=
  ∃ c r, s = c :: r ∧ c ∈ ['^', '_', '\x7d']

theorem FollowsSymbol.notAhead {s : List Char} (h : FollowsSymbol s) : NotAhead isSymbolChar s := by
  obtain ⟨c, r, rfl, hc⟩ := h
  simp only [List.mem_cons, List.not_mem_nil, or_false] at hc
  rcases hc with rfl | rfl | rfl <;> exact notAhead_cons.mpr (by decide)

theorem FollowsSymbol.ne_brace {s : List Char} (h : FollowsSymbol s) (r : List Char) :
    s ≠ '\x7b' :: r := by
  obtain ⟨c, r', rfl, hc⟩ := h
  intro heq
  rw [(List.cons.inj heq).1] at hc
  revert hc
  decide

theorem notAhead_brace (r : List Char) : NotAhead isSymbolChar ('\x7b' :: r) :=
  notAhead_cons.mpr (by decide)

/-- A name with its accent can be read off the front of a text. -/
theorem accented_append_inj {y z : Symmetry} {m n : String} {s t : List Char}
    (hm : IsPlainName m) (hn : IsPlainName n) (hs : FollowsSymbol s) (ht : FollowsSymbol t)
    (h : (accented y (latexName m)).toList ++ s = (accented z (latexName n)).toList ++ t) :
    y = z ∧ m = n ∧ s = t := by
  -- A plain symbol is followed by `s`, an accent by the brace that opens its argument.
  by_cases hy : y = .plain <;> by_cases hz : z = .plain
  · subst hy hz
    obtain ⟨hnames, hst⟩ := append_inj_of_span hm.isSymbolChar_latexName hn.isSymbolChar_latexName
      hs.notAhead ht.notAhead h
    exact ⟨rfl, latexName_inj hm hn hnames, hst⟩
  · subst hy
    rw [toList_accented_of_ne hz, List.append_assoc, List.cons_append] at h
    obtain ⟨_, hbrace⟩ := append_inj_of_span hm.isSymbolChar_latexName (isSymbolChar_accent z)
      hs.notAhead (notAhead_brace _) h
    exact absurd hbrace (hs.ne_brace _)
  · subst hz
    rw [toList_accented_of_ne hy, List.append_assoc, List.cons_append] at h
    obtain ⟨_, hbrace⟩ := append_inj_of_span (isSymbolChar_accent y) hn.isSymbolChar_latexName
      (notAhead_brace _) ht.notAhead h
    exact absurd hbrace.symm (ht.ne_brace _)
  · rw [toList_accented_of_ne hy, toList_accented_of_ne hz, List.append_assoc, List.append_assoc,
      List.cons_append, List.cons_append] at h
    obtain ⟨haccent, hargument⟩ := append_inj_of_span (isSymbolChar_accent y)
      (isSymbolChar_accent z) (notAhead_brace _) (notAhead_brace _) h
    simp only [List.append_assoc, List.cons.injEq, true_and, List.singleton_append] at hargument
    have hclosing : ∀ u, NotAhead isSymbolChar ('\x7d' :: u) := fun u =>
      notAhead_cons.mpr (by decide)
    obtain ⟨hnames, hst⟩ := append_inj_of_span hm.isSymbolChar_latexName hn.isSymbolChar_latexName
      (hclosing s) (hclosing t) hargument
    exact ⟨accent_inj haccent, latexName_inj hm hn hnames, (List.cons.inj hst).2⟩

/-! ## Tensors -/

/-- Whether a tensor can be told from its text: a c-number has a plain name, an operator carries
exactly what an elementary operator of its kind does. -/
def IsReadable (t : Tensor) : Prop :=
  if t.isOperator then ∃ l i, t = elementary l i else IsPlainName t.name

theorem isReadable_iff {t : Tensor} : t.IsReadable ↔
    (∃ l i, t = elementary l i) ∨ t.isOperator = false ∧ IsPlainName t.name := by
  rw [IsReadable]
  cases hop : t.isOperator with
  | false =>
      have hne : ¬∃ l i, t = elementary l i := by
        rintro ⟨l, i, rfl⟩
        cases hop
      simp [hne]
  | true => simp

/-- The letter of an elementary operator. -/
def ladderLetter (l : Ladder) : Char :=
  match l.statistics with | .fermion => 'a' | .boson => 'b'

/-- What stands between the letter of an elementary operator and its index. -/
def ladderMark (l : Ladder) : List Char :=
  match l.action with
  | .creation => '^' :: '\x7b' :: ("\\dagger".toList ++ ['\x7d', '_', '\x7b'])
  | .annihilation => ['_', '\x7b']

theorem toList_ladderLatex (l : Ladder) (i : Index) : (ladderLatex l i).toList =
    '\x7b' :: ladderLetter l :: (ladderMark l ++ (i.latex.toList ++ ['\x7d', '\x7d'])) := by
  obtain ⟨y, a⟩ := l
  cases y <;> cases a <;> simp [ladderLatex, ladderLetter, ladderMark]

theorem toList_latex_cNumber {t : Tensor} (ht : t.isOperator = false) : t.latex.toList =
    '\x7b' :: ((accented t.symmetry (latexName t.name)).toList ++ scriptText t.upper t.lower) := by
  have hladder : t.ladder = none := by simpa [isOperator] using ht
  have hnone : t.elementary? = none := by rw [elementary?, hladder]
  rw [latex, hnone]
  simp [scriptText]

theorem followsSymbol_scriptText (u l : List Index) (s : List Char) :
    FollowsSymbol (scriptText u l ++ s) := by
  rw [scriptText, toList_script, toList_script]
  cases u with
  | cons i u => exact ⟨'^', _, rfl, by decide⟩
  | nil =>
      cases l with
      | cons i l => exact ⟨'_', _, rfl, by decide⟩
      | nil => exact ⟨'\x7d', _, rfl, by decide⟩

/-- An elementary operator can be read off the front of a text. -/
theorem ladderLatex_append_inj {k l : Ladder} {i j : Index} {s t : List Char}
    (h : (ladderLatex k i).toList ++ s = (ladderLatex l j).toList ++ t) :
    k = l ∧ i = j ∧ s = t := by
  simp only [toList_ladderLatex, List.cons_append, List.append_assoc, List.cons.injEq,
    true_and] at h
  obtain ⟨hletter, hmark⟩ := h
  have hkl : k = l := by
    obtain ⟨y, a⟩ := k
    obtain ⟨z, b⟩ := l
    cases y <;> cases z <;> cases a <;> cases b <;> simp_all [ladderLetter, ladderMark]
  subst hkl
  obtain ⟨hij, hst⟩ := Index.latex_append_inj (List.append_cancel_left hmark)
  exact ⟨rfl, hij, by simpa using hst⟩

theorem followsSymbol_ladderMark (l : Ladder) (s : List Char) :
    FollowsSymbol (ladderMark l ++ s) := by
  obtain ⟨y, a⟩ := l
  cases a with
  | creation => exact ⟨'^', _, rfl, by decide⟩
  | annihilation => exact ⟨'_', _, rfl, by decide⟩

/-- The index of an operator stands in single braces, those of a c-number in double ones. -/
theorem ladderMark_ne_scriptText (k : Ladder) (i : Index) (u l : List Index) (s t : List Char) :
    ladderMark k ++ (i.latex.toList ++ s) ≠ scriptText u l ++ t := by
  have hbrace := i.letter_ne_brace
  obtain ⟨y, a⟩ := k
  cases a with
  | creation =>
      cases u with
      | cons j u => simp [ladderMark, scriptText, toList_script, Index.listText]
      | nil => cases l <;> simp [ladderMark, scriptText, toList_script]
  | annihilation =>
      cases u with
      | cons j u => simp [ladderMark, scriptText, toList_script]
      | nil =>
          cases l with
          | nil => simp [ladderMark, scriptText, toList_script]
          | cons j l =>
              simp [ladderMark, scriptText, toList_script, Index.toList_latex, Index.listText,
                hbrace]

/-- The text of an elementary operator is not that of a c-number, whatever follows. -/
theorem ladderLatex_ne_cNumber {l : Ladder} {i : Index} {t : Tensor} (ht : t.isOperator = false)
    (hname : IsPlainName t.name) (s s' : List Char) :
    (ladderLatex l i).toList ++ s ≠ t.latex.toList ++ s' := by
  intro h
  rw [toList_ladderLatex, toList_latex_cNumber ht] at h
  simp only [List.cons_append, List.append_assoc, List.cons.injEq, true_and] at h
  -- The letter is a plain symbol as the name of a c-number could be.
  obtain ⟨name, hplain, hletter⟩ : ∃ name, IsPlainName name ∧
      (accented .plain (latexName name)).toList = [ladderLetter l] := by
    obtain ⟨y, a⟩ := l
    cases y with
    | fermion => exact ⟨"a", by decide, by cases a <;> decide⟩
    | boson => exact ⟨"b", by decide, by cases a <;> decide⟩
  rw [← List.singleton_append, ← hletter] at h
  obtain ⟨_, _, hscript⟩ := accented_append_inj hplain hname (followsSymbol_ladderMark _ _)
    (followsSymbol_scriptText _ _ _) h
  exact ladderMark_ne_scriptText _ _ _ _ _ _ hscript

/-- A c-number can be read off the front of a text. -/
theorem cNumber_append_inj {x y : Tensor} {s t : List Char} (hx : x.isOperator = false)
    (hy : y.isOperator = false) (hxn : IsPlainName x.name) (hyn : IsPlainName y.name)
    (h : x.latex.toList ++ s = y.latex.toList ++ t) : x = y ∧ s = t := by
  rw [toList_latex_cNumber hx, toList_latex_cNumber hy] at h
  simp only [List.cons_append, List.append_assoc, List.cons.injEq, true_and] at h
  obtain ⟨hsymmetry, hname, hscript⟩ := accented_append_inj hxn hyn
    (followsSymbol_scriptText _ _ _) (followsSymbol_scriptText _ _ _) h
  obtain ⟨hupper, hlower, hst⟩ := scriptText_append_inj hscript
  have hxl : x.ladder = none := by simpa [isOperator] using hx
  have hyl : y.ladder = none := by simpa [isOperator] using hy
  cases x
  cases y
  simp_all

/-- A readable tensor can be read off the front of a text. -/
theorem latex_append_inj {x y : Tensor} {s t : List Char} (hx : x.IsReadable) (hy : y.IsReadable)
    (h : x.latex.toList ++ s = y.latex.toList ++ t) : x = y ∧ s = t := by
  obtain ⟨k, i, rfl⟩ | ⟨hxc, hxn⟩ := isReadable_iff.mp hx <;>
    obtain ⟨l, j, rfl⟩ | ⟨hyc, hyn⟩ := isReadable_iff.mp hy
  · obtain ⟨rfl, rfl, hst⟩ := ladderLatex_append_inj h
    exact ⟨rfl, hst⟩
  · exact absurd h (ladderLatex_ne_cNumber hyc hyn s t)
  · exact absurd h.symm (ladderLatex_ne_cNumber hxc hxn t s)
  · exact cNumber_append_inj hxc hyc hxn hyn h

/-- The text of a readable tensor starts with an opening brace. -/
theorem exists_latex_eq_cons {t : Tensor} (ht : t.IsReadable) :
    ∃ r, t.latex.toList = '\x7b' :: r := by
  obtain ⟨l, i, rfl⟩ | ⟨hc, _⟩ := isReadable_iff.mp ht
  · exact ⟨_, toList_ladderLatex l i⟩
  · exact ⟨_, toList_latex_cNumber hc⟩

end Tensor

/-! ## Words -/

namespace Word

/-- The texts of the tensors of a word, one after the other. -/
def text (w : Word) : List Char :=
  w.flatMap fun t => t.latex.toList

theorem text_cons (t : Tensor) (w : Word) : text (t :: w) = t.latex.toList ++ w.text := by
  rw [text, List.flatMap_cons, text]

/-- A readable word begins with an opening brace, unless it is empty. -/
theorem exists_text_eq_cons {w : Word} (hw : ∀ t ∈ w, t.IsReadable) (hne : w ≠ []) :
    ∃ r, w.text = '\x7b' :: r := by
  match w, hne with
  | t :: w, _ =>
      obtain ⟨r, hr⟩ := Tensor.exists_latex_eq_cons (hw t List.mem_cons_self)
      exact ⟨r ++ text w, by rw [text_cons, hr, List.cons_append]⟩

/-- A readable word can be read off a text that does not go on with an opening brace. -/
theorem text_append_inj {v w : Word} {s t : List Char} (hv : ∀ x ∈ v, x.IsReadable)
    (hw : ∀ x ∈ w, x.IsReadable) (hs : s.head? ≠ some '\x7b') (ht : t.head? ≠ some '\x7b')
    (h : v.text ++ s = w.text ++ t) : v = w ∧ s = t := by
  induction v generalizing w with
  | nil =>
      cases w with
      | nil => exact ⟨rfl, h⟩
      | cons y w =>
          obtain ⟨r, hr⟩ := exists_text_eq_cons hw (List.cons_ne_nil y w)
          rw [hr] at h
          exact absurd (congrArg List.head? h) hs
  | cons x v ih =>
      cases w with
      | nil =>
          obtain ⟨r, hr⟩ := exists_text_eq_cons hv (List.cons_ne_nil x v)
          rw [hr] at h
          exact absurd (congrArg List.head? h).symm ht
      | cons y w =>
          obtain ⟨hx, hv'⟩ := List.forall_mem_cons.mp hv
          obtain ⟨hy, hw'⟩ := List.forall_mem_cons.mp hw
          rw [text_cons, text_cons, List.append_assoc, List.append_assoc] at h
          obtain ⟨rfl, hrest⟩ := Tensor.latex_append_inj hx hy h
          obtain ⟨rfl, hst⟩ := ih hv' hw' hrest
          exact ⟨rfl, hst⟩

end Word

end SecondQuant

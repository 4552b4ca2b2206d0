import SecondQuant.Rank

/-!
# Screening with 32-bit counters

The screening keeps each count in 32 bits.  Nothing is taken from a count of zero, but nothing keeps
a count from growing either: one quantum more than `2 ^ 32 - 1` leaves none.  This file is the
screening as it runs, counters included; the operators act as they do on unbounded counts, and what
they make is then stored.  Both agree on a list of operators as long as no count outgrows its
counter (`mem_reach32_iff`).

* `Occupation32`, `Occupation.narrow`, `Occupation32.widen` — counts in 32 bits, storing and reading
  them.
* `stored`, `reach32` — what operators can make of stored counts.
* `Expr.raisesTo32`, `Expr.lowersFrom32` — the questions about one rank.
* `Expr.raisesUpTo32_iff`, `Expr.lowersFromUpTo32_iff` — the questions for any rank up to a bound.
  A rank is brought back by few operators only if it is small, or so close to `2 ^ 32` that they
  can drive the hole count past it.
-/

namespace SecondQuant

/-! ## Counters -/

/-- The numbers of holes, particles and photons above the reference, in 32 bits each. -/
@[ext]
structure Occupation32 where
  holes : UInt32
  particles : UInt32
  photons : UInt32
  deriving DecidableEq

/-- The counters that an occupation leaves: each count modulo `2 ^ 32`. -/
def Occupation.narrow (o : Occupation) : Occupation32 :=
  ⟨.ofNat o.holes, .ofNat o.particles, .ofNat o.photons⟩

/-- Whether each count has room in its counter. -/
def Occupation.Fits (o : Occupation) : Prop :=
  o.holes < UInt32.size ∧ o.particles < UInt32.size ∧ o.photons < UInt32.size

namespace Occupation32

/-- The counts that the counters stand for. -/
def widen (o : Occupation32) : Occupation :=
  ⟨o.holes.toNat, o.particles.toNat, o.photons.toNat⟩

/-- The reference state. -/
def reference : Occupation32 := ⟨0, 0, 0⟩

/-- A determinant of rank `k`: `k` holes, `k` particles and no photon. -/
def determinant (k : UInt32) : Occupation32 := ⟨k, k, 0⟩

@[simp] theorem widen_determinant (k : UInt32) : (determinant k).widen = .determinant k.toNat := rfl

@[simp] theorem narrow_widen (o : Occupation32) : o.widen.narrow = o := by
  simp only [widen, Occupation.narrow, UInt32.ofNat_toNat]

/-- Counters are known by the counts that they stand for. -/
theorem widen_injective {o p : Occupation32} (h : o.widen = p.widen) : o = p := by
  rw [← narrow_widen o, h, narrow_widen]

/-- Counters in the order of the counts that they stand for. -/
def cmp (o p : Occupation32) : Ordering :=
  Occupation.cmp o.widen p.widen

instance : Std.TransCmp cmp where
  eq_swap {o p} := by
    show Occupation.cmp o.widen p.widen = (Occupation.cmp p.widen o.widen).swap
    exact Std.OrientedCmp.eq_swap
  isLE_trans {o p q} h h' := by
    show (Occupation.cmp o.widen q.widen).isLE = true
    exact Std.TransCmp.isLE_trans h h'

instance : Std.LawfulEqCmp cmp where
  eq_of_compare h := widen_injective (Std.LawfulEqCmp.eq_of_compare h)

end Occupation32

namespace Occupation

@[simp] theorem holes_narrow (o : Occupation) : o.narrow.holes.toNat = o.holes % UInt32.size :=
  UInt32.toNat_ofNat'

@[simp] theorem particles_narrow (o : Occupation) :
    o.narrow.particles.toNat = o.particles % UInt32.size :=
  UInt32.toNat_ofNat'

@[simp] theorem photons_narrow (o : Occupation) :
    o.narrow.photons.toNat = o.photons % UInt32.size :=
  UInt32.toNat_ofNat'

/-- Counts that have room are stored as they are. -/
theorem widen_narrow {o : Occupation} (h : o.Fits) : o.narrow.widen = o := by
  obtain ⟨hholes, hparticles, hphotons⟩ := h
  simp only [Occupation32.widen, holes_narrow, particles_narrow, photons_narrow,
    Nat.mod_eq_of_lt hholes, Nat.mod_eq_of_lt hparticles, Nat.mod_eq_of_lt hphotons]

end Occupation

/-! ## Following a term -/

/-- A reading of an operator, with the outcome stored in the counters. -/
def stored (f : Occupation → Option Occupation) (o : Occupation32) : Option Occupation32 :=
  (f o.widen).map Occupation.narrow

/-- What a list of readings can make of a list of occupations, each once and in ascending order.
Counters that have wrapped around are small again, so every outcome is put in its place. -/
def images32 (fs : List (Occupation → Option Occupation)) (os : List Occupation32) :
    List Occupation32 :=
  (os.flatMap fun o => fs.filterMap fun f => stored f o).foldr
    (fun o => unionBy Occupation32.cmp [o]) []

/-- What a list of operators, acting from right to left, can make of an occupation. -/
def reach32 (ts : List Tensor) (start : Occupation32) : List Occupation32 :=
  match ts with
  | [] => [start]
  | t :: ts => images32 (readings t) (reach32 ts start)

theorem stored_eq_some_iff {f : Occupation → Option Occupation} {o p : Occupation32} :
    stored f o = some p ↔ ∃ q, f o.widen = some q ∧ q.narrow = p :=
  Option.map_eq_some_iff

theorem mem_foldr_unionBy {os : List Occupation32} {o : Occupation32} :
    o ∈ os.foldr (fun o => unionBy Occupation32.cmp [o]) [] ↔ o ∈ os := by
  induction os with
  | nil => rfl
  | cons p os ih => rw [List.foldr_cons, mem_unionBy, ih, List.mem_singleton, List.mem_cons]

theorem mem_images32 {fs : List (Occupation → Option Occupation)} {os : List Occupation32}
    {final : Occupation32} :
    final ∈ images32 fs os ↔ ∃ o ∈ os, ∃ f ∈ fs, stored f o = some final := by
  simp only [images32, mem_foldr_unionBy, List.mem_flatMap, List.mem_filterMap]

/-- The last operator acts on an occupation that the others lead to. -/
theorem mem_reach32_cons {t : Tensor} {ts : List Tensor} {start final : Occupation32} :
    final ∈ reach32 (t :: ts) start ↔
      ∃ mid ∈ reach32 ts start, ∃ f ∈ readings t, stored f mid = some final :=
  mem_images32

/-- A run of two lists of operators passes through an occupation between them. -/
theorem mem_reach32_append {ts us : List Tensor} {start final : Occupation32} :
    final ∈ reach32 (ts ++ us) start ↔ ∃ mid ∈ reach32 us start, final ∈ reach32 ts mid := by
  induction ts generalizing final with
  | nil => simp [reach32]
  | cons t ts ih =>
      simp only [List.cons_append, mem_reach32_cons, ih]
      constructor
      · rintro ⟨o, ⟨mid, hmid, ho⟩, h⟩
        exact ⟨mid, hmid, o, ho, h⟩
      · rintro ⟨mid, hmid, o, ho, h⟩
        exact ⟨o, ⟨mid, hmid, ho⟩, h⟩

theorem strictlyAscending_images32 (fs : List (Occupation → Option Occupation))
    (os : List Occupation32) :
    (images32 fs os).Pairwise fun o p => Occupation32.cmp o p = .lt := by
  unfold images32
  induction os.flatMap fun o => fs.filterMap fun f => stored f o with
  | nil => exact .nil
  | cons o os ih => exact pairwise_unionBy (List.pairwise_singleton _ o) ih

/-- The occupations stand in strictly ascending order. -/
theorem strictlyAscending_reach32 (ts : List Tensor) (start : Occupation32) :
    (reach32 ts start).Pairwise fun o p => Occupation32.cmp o p = .lt := by
  cases ts with
  | nil => exact List.pairwise_singleton _ start
  | cons t ts => exact strictlyAscending_images32 _ _

/-! ## Agreement with unbounded counts -/

/-- Whether no run of the operators outgrows a counter, at the end or on the way. -/
def StaysInRange (ts : List Tensor) (start : Occupation) : Prop :=
  ∀ n, ∀ o ∈ reach (ts.drop n) start, o.Fits

theorem StaysInRange.tail {t : Tensor} {ts : List Tensor} {start : Occupation}
    (h : StaysInRange (t :: ts) start) : StaysInRange ts start :=
  fun n => h (n + 1)

/-- **Counters agree with counts.**  As long as no run outgrows a counter, the counters follow the
unbounded counts. -/
theorem mem_reach32_iff {ts : List Tensor} {start final : Occupation32}
    (h : StaysInRange ts start.widen) :
    final ∈ reach32 ts start ↔ final.widen ∈ reach ts start.widen := by
  induction ts generalizing final with
  | nil =>
      rw [reach32, reach, List.mem_singleton, List.mem_singleton]
      exact ⟨congrArg _, Occupation32.widen_injective⟩
  | cons t ts ih =>
      have ih {mid : Occupation32} : mid ∈ reach32 ts start ↔ mid.widen ∈ reach ts start.widen :=
        ih h.tail
      rw [mem_reach32_cons, mem_reach_cons]
      constructor
      · rintro ⟨mid, hmid, f, hf, hstored⟩
        obtain ⟨q, hq, rfl⟩ := stored_eq_some_iff.mp hstored
        have hreach : q ∈ reach (t :: ts) start.widen :=
          mem_reach_cons.mpr ⟨f, hf, mid.widen, ih.mp hmid, hq⟩
        exact ⟨f, hf, mid.widen, ih.mp hmid, by rw [Occupation.widen_narrow (h 0 q hreach), hq]⟩
      · rintro ⟨f, hf, o, ho, hfo⟩
        have hfits : o.Fits := h 1 o ho
        rw [← Occupation.widen_narrow hfits] at ho hfo
        exact ⟨o.narrow, ih.mpr ho, f, hf, stored_eq_some_iff.mpr ⟨_, hfo, final.narrow_widen⟩⟩

/-! ## How far a term reaches -/

/-- A run moves the hole counter by at most as many steps as there are operators, on the line of
numbers or past the end of the counter. -/
theorem holes_of_mem_reach32 {ts : List Tensor} {start final : Occupation32}
    (h : final ∈ reach32 ts start) :
    start.holes.toNat ≤ final.holes.toNat + ts.length ∧
        final.holes.toNat ≤ start.holes.toNat + ts.length ∨
      UInt32.size + final.holes.toNat ≤ start.holes.toNat + ts.length ∨
      UInt32.size + start.holes.toNat ≤ final.holes.toNat + ts.length := by
  induction ts generalizing final with
  | nil =>
      obtain rfl := List.mem_singleton.mp h
      exact .inl ⟨Nat.le_refl _, Nat.le_refl _⟩
  | cons t ts ih =>
      obtain ⟨mid, hmid, f, hf, hstored⟩ := mem_reach32_cons.mp h
      obtain ⟨q, hq, rfl⟩ := stored_eq_some_iff.mp hstored
      have hnear : mid.holes.toNat ≤ q.holes + 1 ∧ q.holes ≤ mid.holes.toNat + 1 :=
        holes_near_of_readings hf hq
      have hmidRange := mid.holes.toNat_lt_size
      have ih := ih hmid
      have hsize : UInt32.size = 4294967296 := rfl
      rw [hsize] at hmidRange ih ⊢
      rw [Occupation.holes_narrow, hsize, List.length_cons]
      omega

/-- A rank that few operators bring back is small, or close to the end of the counter. -/
theorem rank_of_mem_reach32 {ts : List Tensor} {k : UInt32}
    (h : Occupation32.reference ∈ reach32 ts (.determinant k)) :
    k.toNat ≤ ts.length ∨ UInt32.size - ts.length ≤ k.toNat := by
  have hholes := holes_of_mem_reach32 h
  have hreference : Occupation32.reference.holes.toNat = 0 := rfl
  have hdeterminant : (Occupation32.determinant k).holes.toNat = k.toNat := rfl
  omega

/-! ## Screening -/

/-- Whether a list of operators can lead from one occupation to another. -/
def connects32 (ts : List Tensor) (start final : Occupation32) : Bool :=
  (reach32 ts start).contains final

/-- Whether a list of operators can make a determinant of rank at most `k` out of the
reference. -/
def makesUpTo32 (k : UInt32) (ts : List Tensor) : Bool :=
  (reach32 ts .reference).any fun o => o.widen.isDeterminantUpTo k.toNat

/-- Whether a list of operators can bring a determinant of rank at most `k` back to the
reference; only ranks that are small or close to the end of the counter are tried. -/
def undoesUpTo32 (k : UInt32) (ts : List Tensor) : Bool :=
  let undoes r := connects32 ts (.determinant (.ofNat r)) .reference
  let large := UInt32.size - ts.length
  anyUpTo undoes (min k.toNat ts.length) || anyFrom undoes large (k.toNat + 1 - large)

theorem connects32_iff {ts : List Tensor} {start final : Occupation32} :
    connects32 ts start final = true ↔ final ∈ reach32 ts start :=
  List.contains_iff_mem

theorem makesUpTo32_iff {k : UInt32} {ts : List Tensor} :
    makesUpTo32 k ts = true ↔ ∃ r, r ≤ k ∧ connects32 ts .reference (.determinant r) = true := by
  simp only [makesUpTo32, List.any_eq_true, Occupation.isDeterminantUpTo, Bool.and_eq_true,
    decide_eq_true_eq, connects32_iff]
  constructor
  · rintro ⟨o, ho, he, hk⟩
    have he : o = .determinant o.holes := Occupation32.widen_injective he
    exact ⟨o.holes, hk, he ▸ ho⟩
  · rintro ⟨r, hk, ho⟩
    exact ⟨_, ho, rfl, hk⟩

theorem undoesUpTo32_iff {k : UInt32} {ts : List Tensor} :
    undoesUpTo32 k ts = true ↔
      ∃ r, r ≤ k ∧ connects32 ts (.determinant r) .reference = true := by
  rw [undoesUpTo32, Bool.or_eq_true, anyUpTo_iff, anyFrom_iff]
  constructor
  · have hbelow : ∀ r, r ≤ k.toNat → UInt32.ofNat r ≤ k := fun r hr => by
      have hk := k.toNat_lt
      rw [UInt32.le_iff_toNat_le, UInt32.toNat_ofNat']
      omega
    rintro (⟨r, hr, h⟩ | ⟨r, hlarge, hr, h⟩)
    · exact ⟨.ofNat r, hbelow r (Nat.le_trans hr (Nat.min_le_left _ _)), h⟩
    · exact ⟨.ofNat r, hbelow r (by omega), h⟩
  · rintro ⟨r, hr, h⟩
    rw [UInt32.le_iff_toNat_le] at hr
    rcases rank_of_mem_reach32 (connects32_iff.mp h) with hsmall | hlarge
    · exact .inl ⟨r.toNat, Nat.le_min.mpr ⟨hr, hsmall⟩, by rwa [UInt32.ofNat_toNat]⟩
    · exact .inr ⟨r.toNat, hlarge, by omega, by rwa [UInt32.ofNat_toNat]⟩

namespace Expr

/-- Whether some term can make a determinant of rank `k` out of the reference. -/
def raisesTo32 (e : Expr) (k : UInt32) : Bool :=
  e.terms.any fun t => connects32 t.2.operators .reference (.determinant k)

/-- Whether some term can make a determinant of rank at most `k` out of the reference. -/
def raisesUpTo32 (e : Expr) (k : UInt32) : Bool :=
  e.terms.any fun t => makesUpTo32 k t.2.operators

/-- Whether some term can bring a determinant of rank `k` back to the reference. -/
def lowersFrom32 (e : Expr) (k : UInt32) : Bool :=
  e.terms.any fun t => connects32 t.2.operators (.determinant k) .reference

/-- Whether some term can bring a determinant of rank at most `k` back to the reference. -/
def lowersFromUpTo32 (e : Expr) (k : UInt32) : Bool :=
  e.terms.any fun t => undoesUpTo32 k t.2.operators

/-- Some rank up to the bound can be made. -/
theorem raisesUpTo32_iff {e : Expr} {k : UInt32} :
    e.raisesUpTo32 k = true ↔ ∃ r, r ≤ k ∧ e.raisesTo32 r = true := by
  simp only [raisesUpTo32, raisesTo32, List.any_eq_true, makesUpTo32_iff]
  exact ⟨fun ⟨t, ht, r, hr, h⟩ => ⟨r, hr, t, ht, h⟩, fun ⟨r, hr, t, ht, h⟩ => ⟨t, ht, r, hr, h⟩⟩

/-- Some rank up to the bound can be brought back. -/
theorem lowersFromUpTo32_iff {e : Expr} {k : UInt32} :
    e.lowersFromUpTo32 k = true ↔ ∃ r, r ≤ k ∧ e.lowersFrom32 r = true := by
  simp only [lowersFromUpTo32, lowersFrom32, List.any_eq_true, undoesUpTo32_iff]
  exact ⟨fun ⟨t, ht, r, hr, h⟩ => ⟨r, hr, t, ht, h⟩, fun ⟨r, hr, t, ht, h⟩ => ⟨t, ht, r, hr, h⟩⟩

end Expr

end SecondQuant

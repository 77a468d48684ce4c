import Reckoner.Proofs.Trace.Power

set_option autoImplicit false

namespace Reckoner

open Decimal

/-- The term of this number is added: none up to it is spent. -/
def Decimal.Series.Reaches (S : Series) (n : ℕ) : Prop :=
  n < turnLimit ∧ ∀ j ≤ n, S.spent (S.term j) = false

namespace Traced

/-- A series, and what is divided by at one of its terms. -/
structure Loop where
  series : Series
  divisors : Term → List ℤ

namespace Loop

def artanh (z : ℤ) : Loop := ⟨artanhSeries z, fun t => [t.index, fineOne]⟩

def arctan (z : ℤ) : Loop := ⟨arctanSeries z, fun t => [t.index, fineOne]⟩

def exp (r : ℤ) : Loop := ⟨expSeries r, fun t => [fineOne * t.index]⟩

def circular (series : ℤ → Series) (x : ℤ) : Loop :=
  ⟨series x, fun t => [fineOne * ((t.index + 1) * (t.index + 2) : ℕ)]⟩

def arctanInverse (q unit : ℤ) : Loop := ⟨arctanInverseSeries q unit, fun t => [t.power * t.index]⟩

def ln2 : Loop := artanh (fineOne.tdiv 3)

def machin : List Loop := [arctanInverse 5 machinUnit, arctanInverse 239 machinUnit]

/-- The loop is on the record, with its divisors at each term that is reached. -/
def Within (l : Loop) (events : List Event) : Prop :=
  .series l.series ∈ events ∧ ∀ n, l.series.Reaches n →
    ∀ d ∈ l.divisors (l.series.term n), .division d ∈ events

theorem Within.mono {l : Loop} {events events' : List Event} (h : l.Within events)
    (hsubset : events ⊆ events') : l.Within events' :=
  ⟨hsubset h.1, fun n hn d hd => hsubset (h.2 n hn d hd)⟩

end Loop

section

variable {α β : Type} {t : Traced α} {v : α} {f : α → Traced β}

theorem subset_bind_left : t.events ⊆ (t >>= f).events := fun _ => mem_bind_left

theorem subset_bind_right (ht : Sound t v) : (f v).events ⊆ (t >>= f).events :=
  fun _ => mem_bind_right ht

end

section

variable {S : Series} {steps : Steps} {Kept : Term → Prop} {x z r q unit : ℤ}

theorem mem_sum (S : Series) (steps : Steps) : .series S ∈ (sum S steps).events :=
  List.mem_cons_self

theorem Steps.Follow.subset_turn (h : steps.Follow S Kept) {t : Term} (ht : Kept t)
    (hspent : S.spent t = false) (turns : ℕ) :
    (steps.addend t >>= fun a => steps.next t >>= fun t' =>
      steps.sumFrom turns t' >>= fun rest => pure (a + rest)).events ⊆
      (steps.sumFrom (turns + 1) t).events := by
  refine fun _ he => mem_bind_right (h.spent t ht) ?_
  rw [hspent]
  exact he

/-- What is done at a term that is reached is done on the way to the sum. -/
theorem Steps.Follow.subset_sumFrom (h : steps.Follow S Kept) {n turns : ℕ} {t : Term}
    (ht : Kept t) (hn : n < turns) (hreached : ∀ j ≤ n, S.spent (S.next^[j] t) = false) :
    (steps.addend (S.next^[n] t)).events ++ (steps.next (S.next^[n] t)).events ⊆
      (steps.sumFrom turns t).events := by
  induction n generalizing turns t with
  | zero =>
    obtain ⟨turns, rfl⟩ := Nat.exists_eq_add_of_le' hn
    refine List.Subset.trans (List.append_subset.mpr ⟨subset_bind_left, ?_⟩)
      (h.subset_turn ht (hreached 0 le_rfl) turns)
    exact fun _ he => mem_bind_right (h.addend t ht) (mem_bind_left he)
  | succ n ih =>
    obtain ⟨turns, rfl⟩ := Nat.exists_eq_add_of_le' (Nat.one_le_of_lt hn)
    have hrest := ih (h.kept t ht) (Nat.lt_of_succ_lt_succ hn)
      fun j hj => hreached (j + 1) (Nat.succ_le_succ hj)
    refine fun _ he => h.subset_turn ht (hreached 0 (n + 1).zero_le) turns ?_
    exact mem_bind_right (h.addend t ht) (mem_bind_right (h.next t ht) (mem_bind_left (hrest he)))

theorem Steps.Follow.within (h : steps.Follow S Kept) {divisors : Term → List ℤ}
    (hdivisors : ∀ t, ∀ d ∈ divisors t,
      .division d ∈ (steps.addend t).events ++ (steps.next t).events) :
    Loop.Within ⟨S, divisors⟩ (sum S steps).events := by
  refine ⟨mem_sum S steps, fun n hn d hd => List.mem_cons_of_mem _ ?_⟩
  exact h.subset_sumFrom h.start hn.1 hn.2 (hdivisors _ d hd)

theorem within_artanhSum (z : ℤ) : (Loop.artanh z).Within (artanhSum z).events := by
  refine .mono ?_ (subset_bind_right (sound_fineProduct z z))
  refine (follow_oddSteps Nat.one_pos rfl rfl fun _ => sound_divided).within fun t d hd => ?_
  rcases List.mem_pair.mp hd with rfl | rfl
  · exact List.mem_append_left _ (mem_divide _ _)
  · exact List.mem_append_right _ (mem_bind_left (mem_divide _ _))

theorem within_arctanSum (z : ℤ) : (Loop.arctan z).Within (arctanSum z).events := by
  refine .mono ?_ (subset_bind_right (sound_fineProduct z z))
  refine (follow_oddSteps Nat.one_pos rfl rfl fun _ => sound_alternating).within fun t d hd => ?_
  rcases List.mem_pair.mp hd with rfl | rfl
  · exact List.mem_append_left _ (mem_bind_left (mem_divide _ _))
  · exact List.mem_append_right _ (mem_bind_left (mem_divide _ _))

theorem within_expSum (r : ℤ) : (Loop.exp r).Within (expSum r).events := by
  refine (follow_expSteps r).within fun t d hd => ?_
  rw [List.mem_singleton.mp hd]
  exact List.mem_append_right _ (mem_bind_left (mem_divide _ _))

theorem within_circularSum {series : ℤ → Series} {s : ℕ} (h : Circular (series x) x s) :
    (Loop.circular series x).Within (circularSum series x).events := by
  refine .mono ?_ (subset_bind_right (sound_fineProduct x x))
  refine (follow_circularSteps h).within fun t d hd => ?_
  rw [List.mem_singleton.mp hd]
  exact List.mem_append_right _ (mem_bind_left (mem_divide _ _))

theorem within_arctanInverseSum (hq : 0 < q) (unit : ℤ) :
    (Loop.arctanInverse q unit).Within (arctanInverseSum q unit).events := by
  refine (follow_arctanInverseSteps hq unit).within fun t d hd => ?_
  rw [List.mem_singleton.mp hd]
  exact List.mem_append_left _ (mem_bind_left (mem_divide _ _))

end

/-- What the functions are made of: the exponential, the logarithm, sine and cosine and the
arctangent at a value of the fine grid, the root of a natural number, and π. -/
inductive Kernel where
  | exponential (x : ℤ)
  | logarithm (x : ℤ) (hx : 0 < x)
  | circular (x : ℤ)
  | arctangent (x : ℤ)
  | root (n : ℕ)
  | pi

/-- Beyond 1 the reciprocal takes the place of a magnitude. -/
def atMostOne (a : ℤ) : ℤ := if fineOne < a then (fineOne * fineOne).tdiv a else a

namespace Kernel

def events : Kernel → List Event
  | exponential x => (fineExp x).events
  | logarithm x _ => (fineLn x).events
  | circular x => (fineSinCos x).events
  | arctangent x => (fineArctan x).events
  | root n => (isqrt n).events
  | pi => finePi.events

def loops : Kernel → List Loop
  | exponential x =>
    if |x| ≤ expLimit * fineOne then
      [.ln2, .exp (x - x.tdiv Decimal.fineLn2 * Decimal.fineLn2)]
    else []
  | logarithm x _ =>
    [.artanh (Decimal.fineQuotient (binaryMantissa x - fineOne) (binaryMantissa x + fineOne)), .ln2]
  | circular x => Loop.machin ++ [.circular sinSeries (reduced x), .circular cosSeries (reduced x)]
  | arctangent x =>
    (if fineOne < |x| then Loop.machin else []) ++
      [.arctan (Decimal.halfAngle (Decimal.halfAngle (atMostOne |x|)))]
  | root _ => []
  | pi => Loop.machin

/-- What is divided by outside the series and the roots. -/
def divisors : Kernel → List ℤ
  | exponential x => if |x| ≤ expLimit * fineOne then [3, Decimal.fineLn2] else []
  | logarithm x _ => [binaryMantissa x + fineOne, 3]
  | circular _ => [tenPow machinGuard, 2, Decimal.fineHalfPi, fineOne, 4]
  | arctangent x =>
    let a := atMostOne |x|
    let half := Decimal.halfAngle a
    (if fineOne < |x| then [|x|, tenPow machinGuard, 2] else []) ++
      [fineOne + Decimal.fineRoot (fineOne * fineOne + a * a),
        fineOne + Decimal.fineRoot (fineOne * fineOne + half * half)]
  | root _ => []
  | pi => [tenPow machinGuard]

def roots : Kernel → List ℕ
  | arctangent x =>
    let a := atMostOne |x|
    let half := Decimal.halfAngle a
    [(fineOne * fineOne + a * a).toNat, (fineOne * fineOne + half * half).toNat]
  | root n => [n]
  | _ => []

/-- All that a kernel divides by. -/
inductive Divides (k : Kernel) : ℤ → Prop where
  | outside {d : ℤ} : d ∈ k.divisors → Divides k d
  | term {l : Loop} {n : ℕ} {d : ℤ} :
    l ∈ k.loops → l.series.Reaches n → d ∈ l.divisors (l.series.term n) → Divides k d
  /-- The steps of a root go down as far as the one that is divided by. -/
  | newton {n i : ℕ} :
    n ∈ k.roots → n ≠ 0 →
    (∀ j < i, (newtonStep n)^[j + 1] (rootStart n) < (newtonStep n)^[j] (rootStart n)) →
    Divides k ((newtonStep n)^[i] (rootStart n) : ℕ)

end Kernel

variable {event : Event} {x a : ℤ}

theorem within_fineLn2 : Loop.ln2.Within fineLn2.events :=
  (within_artanhSum _).mono fun _ he =>
    mem_bind_right (sound_divide fineOne three_ne_zero) (mem_bind_left he)

theorem within_machin : ∀ l ∈ Loop.machin, l.Within finePi.events :=
  List.forall_mem_cons.mpr ⟨(within_arctanInverseSum (by norm_num) _).mono subset_bind_left,
    List.forall_mem_singleton.mpr ((within_arctanInverseSum (by norm_num) _).mono
      fun _ he => mem_bind_right sound_arctanFifth (mem_bind_left he))⟩

theorem subset_fineHalfPi : finePi.events ⊆ fineHalfPi.events := subset_bind_left

theorem three_mem_fineLn2 : .division 3 ∈ fineLn2.events := mem_bind_left (mem_divide _ _)

theorem guard_mem_finePi : .division (tenPow machinGuard) ∈ finePi.events :=
  mem_bind_right sound_arctanFifth (mem_bind_right sound_arctanLarge (mem_divide _ _))

theorem two_mem_fineHalfPi : .division 2 ∈ fineHalfPi.events :=
  mem_bind_right sound_finePi (mem_divide _ _)

theorem fineExp_eq (hx : |x| ≤ expLimit * fineOne) : fineExp x = do
    let ln2 ← fineLn2
    let k ← divide x ln2
    let sum ← expSum (x - k * ln2)
    return some (if 0 ≤ k then sum * twoPow k.toNat else sum.shiftRight (-k).toNat) := by
  obtain ⟨hlow, hhigh⟩ := abs_le.mp hx
  rw [fineExp, if_neg hhigh.not_gt, if_neg hlow.not_gt]

theorem mem_arctanMagnitude (h : event ∈ (arctanReduced (atMostOne a)).events) :
    event ∈ (arctanMagnitude a).events := by
  unfold arctanMagnitude
  rw [atMostOne] at h
  split
  · next hlarge =>
    rw [if_pos hlarge] at h
    exact mem_bind_right (sound_divide _ (fineOne_pos.trans hlarge).ne')
      (mem_bind_right sound_fineHalfPi (mem_bind_left h))
  · next hsmall =>
    rw [if_neg hsmall] at h
    exact h

theorem arctanMagnitude_eq (ha : fineOne < a) : arctanMagnitude a = do
    let inverse ← divide (fineOne * fineOne) a
    return (← fineHalfPi) - (← arctanReduced inverse) := by
  rw [arctanMagnitude, if_pos ha]

theorem subset_arctanMagnitude (ha : fineOne < a) :
    fineHalfPi.events ⊆ (arctanMagnitude a).events := by
  rw [arctanMagnitude_eq ha]
  exact fun _ he => mem_bind_right (sound_divide _ (fineOne_pos.trans ha).ne') (mem_bind_left he)

theorem mem_fineArctan (h : event ∈ (arctanMagnitude |x|).events) :
    event ∈ (fineArctan x).events := by
  rw [← Int.natCast_natAbs] at h
  unfold fineArctan
  split
  · exact mem_bind_left h
  · exact h

theorem subset_fineArctan (x : ℤ) :
    (arctanReduced (atMostOne |x|)).events ⊆ (fineArctan x).events :=
  fun _ he => mem_fineArctan (mem_arctanMagnitude he)

theorem mem_descend {n y i : ℕ} (hn : 0 < n) (hy : 0 < y)
    (hdown : ∀ j < i, (newtonStep n)^[j + 1] y < (newtonStep n)^[j] y) :
    .division ((newtonStep n)^[i] y : ℕ) ∈ (descend n y).events := by
  induction i generalizing y with
  | zero =>
    rw [descend]
    exact mem_bind_left (List.mem_singleton_self _)
  | succ i ih =>
    have hlt : newtonStep n y < y := hdown 0 i.succ_pos
    rw [descend]
    refine mem_bind_right (sound_naturalQuotient n hy) ?_
    change _ ∈ Traced.events (if newtonStep n y < y then _ else _)
    rw [if_pos hlt, Function.iterate_succ_apply]
    exact ih (newtonStep_pos hn hy) fun j hj => hdown (j + 1) (Nat.succ_lt_succ hj)

theorem mem_isqrt {n i : ℕ} (hn : n ≠ 0)
    (hdown : ∀ j < i, (newtonStep n)^[j + 1] (rootStart n) < (newtonStep n)^[j] (rootStart n)) :
    .division ((newtonStep n)^[i] (rootStart n) : ℕ) ∈ (isqrt n).events := by
  rw [isqrt, if_neg hn]
  exact mem_descend (Nat.pos_of_ne_zero hn) (rootStart_pos n) hdown

theorem subset_fineRoot (n : ℤ) : (isqrt n.toNat).events ⊆ (fineRoot n).events := subset_bind_left

theorem mem_halfAngle (a : ℤ) :
    .division (fineOne + Decimal.fineRoot (fineOne * fineOne + a * a)) ∈ (halfAngle a).events :=
  mem_bind_right (sound_fineRoot _) (mem_divide _ _)

theorem subset_arctanReduced (a : ℤ) : (halfAngle a).events ++
    (halfAngle (Decimal.halfAngle a)).events ++
      (arctanSum (Decimal.halfAngle (Decimal.halfAngle a))).events ⊆ (arctanReduced a).events := by
  refine List.append_subset.mpr ⟨List.append_subset.mpr ⟨subset_bind_left, ?_⟩, ?_⟩
  · exact fun _ he => mem_bind_right (sound_halfAngle a) (mem_bind_left he)
  · exact fun _ he => mem_bind_right (sound_halfAngle a)
      (mem_bind_right (sound_halfAngle _) (mem_bind_left he))

namespace Kernel

theorem within_exponential (x : ℤ) :
    ∀ l ∈ (exponential x).loops, l.Within (exponential x).events := by
  change ∀ l ∈ (exponential x).loops, l.Within (fineExp x).events
  rw [loops]
  split
  · next hx =>
    rw [fineExp_eq hx]
    refine List.forall_mem_cons.mpr ⟨within_fineLn2.mono subset_bind_left,
      List.forall_mem_singleton.mpr ((within_expSum _).mono fun _ he => ?_)⟩
    exact mem_bind_right sound_fineLn2
      (mem_bind_right (sound_divide x fineLn2_bounds.1.ne') (mem_bind_left he))
  · exact fun _ hl => nomatch hl

theorem within_logarithm {x : ℤ} (hx : 0 < x) :
    ∀ l ∈ (logarithm x hx).loops, l.Within (logarithm x hx).events := by
  have hz := sound_fineQuotient (binaryMantissa x - fineOne) (mantissa_add_fineOne_pos hx).ne'
  refine List.forall_mem_cons.mpr ⟨(within_artanhSum _).mono fun _ he => ?_,
    List.forall_mem_singleton.mpr (within_fineLn2.mono fun _ he => ?_)⟩
  · exact mem_bind_right hz (mem_bind_left he)
  · exact mem_bind_right hz
      (mem_bind_right (sound_artanhSum (abs_fineRat_variable_le hx)) (mem_bind_left he))

theorem within_circular (x : ℤ) : ∀ l ∈ (circular x).loops, l.Within (circular x).events := by
  have hsin := sound_circularSum (circular_sinSeries _) le_rfl (abs_fineRat_reduced_le x)
  have hquotient := sound_divide x fineHalfPi_bounds.1.ne'
  refine List.forall_mem_append.mpr ⟨fun l hl => (within_machin l hl).mono fun _ he => ?_,
    List.forall_mem_cons.mpr ⟨(within_circularSum (circular_sinSeries _)).mono fun _ he => ?_,
      List.forall_mem_singleton.mpr
        ((within_circularSum (circular_cosSeries _)).mono fun _ he => ?_)⟩⟩
  · exact mem_bind_left (subset_fineHalfPi he)
  · exact mem_bind_right sound_fineHalfPi (mem_bind_right hquotient (mem_bind_left he))
  · exact mem_bind_right sound_fineHalfPi (mem_bind_right hquotient
      (mem_bind_right hsin (mem_bind_left he)))

theorem within_arctangent (x : ℤ) :
    ∀ l ∈ (arctangent x).loops, l.Within (arctangent x).events := by
  refine List.forall_mem_append.mpr ⟨fun l hl => ?_,
    List.forall_mem_singleton.mpr ((within_arctanSum _).mono fun _ he => ?_)⟩
  · split at hl
    · next hlarge =>
      exact (within_machin l hl).mono fun _ he =>
        mem_fineArctan (subset_arctanMagnitude hlarge (subset_fineHalfPi he))
    · cases hl
  · exact subset_fineArctan x (subset_arctanReduced _ (List.mem_append_right _ he))

theorem within_loops (k : Kernel) : ∀ l ∈ k.loops, l.Within k.events := by
  cases k with
  | exponential x => exact within_exponential x
  | logarithm x hx => exact within_logarithm hx
  | circular x => exact within_circular x
  | arctangent x => exact within_arctangent x
  | root n => exact fun _ hl => nomatch hl
  | pi => exact within_machin

theorem mem_divisors_exponential (x : ℤ) :
    ∀ d ∈ (exponential x).divisors, .division d ∈ (exponential x).events := by
  change ∀ d ∈ (exponential x).divisors, .division d ∈ (fineExp x).events
  rw [divisors]
  split
  · next hx =>
    rw [fineExp_eq hx]
    exact List.forall_mem_cons.mpr ⟨mem_bind_left three_mem_fineLn2,
      List.forall_mem_singleton.mpr
        (mem_bind_right sound_fineLn2 (mem_bind_left (mem_divide _ _)))⟩
  · exact fun _ hd => nomatch hd

theorem mem_divisors_logarithm {x : ℤ} (hx : 0 < x) :
    ∀ d ∈ (logarithm x hx).divisors, .division d ∈ (logarithm x hx).events := by
  refine List.forall_mem_cons.mpr ⟨mem_bind_left (mem_divide _ _),
    List.forall_mem_singleton.mpr ?_⟩
  exact mem_bind_right (sound_fineQuotient _ (mantissa_add_fineOne_pos hx).ne')
    (mem_bind_right (sound_artanhSum (abs_fineRat_variable_le hx))
      (mem_bind_left three_mem_fineLn2))

theorem mem_divisors_circular (x : ℤ) :
    ∀ d ∈ (circular x).divisors, .division d ∈ (circular x).events := by
  have hreduced := abs_fineRat_reduced_le x
  have hquotient := sound_divide x fineHalfPi_bounds.1.ne'
  have hsin := sound_circularSum (circular_sinSeries _) le_rfl hreduced
  have hcos := sound_circularSum (circular_cosSeries _) zero_le_one hreduced
  refine List.forall_mem_cons.mpr ⟨mem_bind_left (subset_fineHalfPi guard_mem_finePi),
    List.forall_mem_cons.mpr ⟨mem_bind_left two_mem_fineHalfPi, List.forall_mem_cons.mpr ⟨?_,
      List.forall_mem_cons.mpr ⟨?_, List.forall_mem_singleton.mpr ?_⟩⟩⟩⟩
  · exact mem_bind_right sound_fineHalfPi (mem_bind_left (mem_divide _ _))
  · exact mem_bind_right sound_fineHalfPi (mem_bind_right hquotient
      (mem_bind_left (mem_bind_left (mem_divide _ _))))
  · exact mem_bind_right sound_fineHalfPi (mem_bind_right hquotient (mem_bind_right hsin
      (mem_bind_right hcos (mem_bind_left (List.mem_singleton_self _)))))

theorem mem_divisors_arctangent (x : ℤ) :
    ∀ d ∈ (arctangent x).divisors, .division d ∈ (arctangent x).events := by
  refine List.forall_mem_append.mpr ⟨?_, List.forall_mem_cons.mpr ⟨?_,
    List.forall_mem_singleton.mpr ?_⟩⟩
  · split
    · next hlarge =>
      have hhalf := subset_arctanMagnitude hlarge
      refine List.forall_mem_cons.mpr ⟨mem_fineArctan ?_, List.forall_mem_cons.mpr
        ⟨mem_fineArctan (hhalf (subset_fineHalfPi guard_mem_finePi)),
          List.forall_mem_singleton.mpr (mem_fineArctan (hhalf two_mem_fineHalfPi))⟩⟩
      rw [arctanMagnitude_eq hlarge]
      exact mem_bind_left (mem_divide _ _)
    · exact fun _ hd => nomatch hd
  · exact subset_fineArctan x (subset_arctanReduced _
      (List.mem_append_left _ (List.mem_append_left _ (mem_halfAngle _))))
  · exact subset_fineArctan x (subset_arctanReduced _
      (List.mem_append_left _ (List.mem_append_right _ (mem_halfAngle _))))

theorem mem_divisors (k : Kernel) : ∀ d ∈ k.divisors, .division d ∈ k.events := by
  cases k with
  | exponential x => exact mem_divisors_exponential x
  | logarithm x hx => exact mem_divisors_logarithm hx
  | circular x => exact mem_divisors_circular x
  | arctangent x => exact mem_divisors_arctangent x
  | root n => exact fun _ hd => nomatch hd
  | pi => exact List.forall_mem_singleton.mpr guard_mem_finePi

theorem mem_newton (k : Kernel) {n i : ℕ} (hk : n ∈ k.roots) (hn : n ≠ 0)
    (hdown : ∀ j < i, (newtonStep n)^[j + 1] (rootStart n) < (newtonStep n)^[j] (rootStart n)) :
    .division ((newtonStep n)^[i] (rootStart n) : ℕ) ∈ k.events := by
  have hroot := mem_isqrt hn hdown
  cases k with
  | arctangent x =>
    refine subset_fineArctan x (subset_arctanReduced _ (List.mem_append_left _ ?_))
    rcases List.mem_pair.mp hk with rfl | rfl
    · exact List.mem_append_left _ (mem_bind_left (subset_fineRoot _ hroot))
    · exact List.mem_append_right _ (mem_bind_left (subset_fineRoot _ hroot))
  | root m =>
    rw [List.mem_singleton.mp hk] at hroot ⊢
    exact hroot
  | exponential | logarithm | circular | pi => cases hk

theorem mem_events (k : Kernel) {d : ℤ} (h : k.Divides d) : .division d ∈ k.events := by
  cases h with
  | outside hd => exact k.mem_divisors _ hd
  | term hl hn hd => exact (k.within_loops _ hl).2 _ hn _ hd
  | newton hk hn hdown => exact k.mem_newton hk hn hdown

end Kernel

end Traced

end Reckoner

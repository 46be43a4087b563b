import FiniteCalculus.Proofs.Assertion.NearLists
import FiniteCalculus.Proofs.Value.Undefined

/-! Which lists agree up to a bound on the differences of their entries. Entries are rejected if
their difference is greater than the bound. An undefined difference is not greater than anything,
so an undefined entry is accepted next to every other one, although it is within no bound of it. -/

namespace FiniteCalculus
set_option autoImplicit false

namespace Double

open Float.Model Float.Model.UnpackedFloat

theorem nan_sub (x : Float) : nan - x = nan := by
  rw [sub_eq, unpack_nan]
  cases x.toModel.unpack <;> rfl

theorem sub_nan (x : Float) : x - nan = nan := by
  rw [sub_eq, unpack_nan]
  cases x.toModel.unpack <;> rfl

theorem abs_nan : nan.abs = nan := by decide

theorem exists_place?_of_isInf {x : Float} (h : x.isInf = true) : ∃ p, place? x = some p :=
  exists_place? (isNaN_of_isInf h)

theorem exists_place?_abs {x : Float} {p : Place} (h : place? x = some p) :
    ∃ q, place? x.abs = some q := by
  rcases double_cases x with ux | ⟨s, ux⟩ | ⟨q, hx⟩
  · cases h.symm.trans (place?_eq_none_iff.mpr (isNaN_of_unpack ux))
  · rw [abs_eq, ux]
    exact exists_place?_of_isInf (isInf_pack_infinity .positive)
  · exact ⟨_, place?_of_toRat? (abs_of_toRat? hx)⟩

/-- Only the difference of two infinities of the same sign is undefined. -/
theorem exists_place?_sub {x y : Float} {p q : Place} (hx : place? x = some p)
    (hy : place? y = some q) (apart : x.isInf = true → y.isInf = true → p ≠ q) :
    ∃ r, place? (x - y) = some r := by
  rcases double_cases x with ux | ⟨s, ux⟩ | ⟨a, ratX⟩
  · cases hx.symm.trans (place?_eq_none_iff.mpr (isNaN_of_unpack ux))
  · rcases double_cases y with uy | ⟨t, uy⟩ | ⟨b, ratY⟩
    · cases hy.symm.trans (place?_eq_none_iff.mpr (isNaN_of_unpack uy))
    · have opposite : s ≠ t := by
        rintro rfl
        rw [place?, parts, ux] at hx
        rw [place?, parts, uy] at hy
        exact apart (isInf_of_unpack ux).1 (isInf_of_unpack uy).1
          (Option.some.inj (hx.symm.trans hy))
      rw [sub_eq, ux, uy]
      cases s <;> cases t
      · exact absurd rfl opposite
      · exact exists_place?_of_isInf (isInf_pack_infinity _)
      · exact exists_place?_of_isInf (isInf_pack_infinity _)
      · exact absurd rfl opposite
    · exact exists_place?_of_isInf (isInf_sub (isInf_of_unpack ux).1 ratY)
  · rcases double_cases y with uy | ⟨t, uy⟩ | ⟨b, ratY⟩
    · cases hy.symm.trans (place?_eq_none_iff.mpr (isNaN_of_unpack uy))
    · rw [sub_eq, uy]
      rcases number_cases ratX with ⟨_, ux, _⟩ | ⟨_, _, _, _, ux, _⟩
      · rw [ux]
        exact exists_place?_of_isInf (isInf_pack_infinity _)
      · rw [ux]
        exact exists_place?_of_isInf (isInf_pack_infinity _)
    · exact (isRounded_sub ratX ratY).exists_place?

end Double

namespace Value
variable {v w d g : Value}

theorem place?_nan : nan.place? = none := rfl

theorem place?_eq_none_iff (real : v.isReal) : v.place? = none ↔ v = nan := by
  constructor
  · intro none
    cases v with
    | double x => rw [Double.eq_nan_of_isNaN (Double.place?_eq_none_iff.mp none), nan]
    | int _ | bool _ => cases none
    | _ => cases real
  · rintro rfl
    exact place?_nan

theorem place?_toDouble {x : Float} (h : v.toDouble = .ok x) (number : v ≠ nan) :
    ∃ p, Double.place? x = some p := by
  refine Double.exists_place? (Bool.eq_false_iff.mpr fun undefined => number ?_)
  rw [eq_double_of_isNaN h undefined, Double.eq_nan_of_isNaN undefined, nan]

/-- Two values that are not equal have an undefined difference just if one of them is undefined. -/
theorem Subtracts.place?_magnitude (h : Subtracts v w d) (hg : d.magnitude = .ok g)
    (hv : v.isReal) (hw : w.isReal) (apart : ¬ v.equal w = true) :
    g.place? = none ↔ v = nan ∨ w = nan := by
  cases h with
  | exact integerV integerW hd =>
    subst hd
    cases hg
    refine iff_of_false (fun none => ?_) ?_
    · cases none
    · rintro (rfl | rfl)
      · cases integerV
      · cases integerW
  | @rounded x y _ hx hy hd =>
    subst hd
    cases hg
    constructor
    · intro undefined
      by_contra numbers
      obtain ⟨numberV, numberW⟩ := not_or.mp numbers
      obtain ⟨p, hp⟩ := place?_toDouble hx numberV
      obtain ⟨q, hq⟩ := place?_toDouble hy numberW
      have unequal (infX : x.isInf = true) (infY : y.isInf = true) : p ≠ q := by
        rintro rfl
        refine apart ((equal_iff_place hv hw).mpr ⟨p, ?_, ?_⟩)
        · rwa [eq_double_of_isInf hx infX]
        · rwa [eq_double_of_isInf hy infY]
      obtain ⟨r, hr⟩ := Double.exists_place?_sub hp hq unequal
      obtain ⟨size, hsize⟩ := Double.exists_place?_abs hr
      cases undefined.symm.trans hsize
    · rintro (rfl | rfl)
      · cases hx
        rw [Double.nan_sub, Double.abs_nan]
        rfl
      · cases hy
        rw [Double.sub_nan, Double.abs_nan]
        rfl

end Value

namespace Assertion

/-- Two entries are equal, or their difference without its sign is at most the bound. -/
def AgreeWithin (bound v w : Value) : Prop :=
  v.equal w = true ∨ ∃ d g, v.sub w = .ok d ∧ d.magnitude = .ok g ∧ g.le bound = true

section
variable {bound v w : Value}

theorem exceeds_iff {g : Value} (real : bound.isReal) (number : bound ≠ .nan) :
    bound.lt g = false ↔ g.le bound = true ∨ g.place? = none := by
  obtain ⟨b, hb⟩ := Option.ne_none_iff_exists'.mp (mt (Value.place?_eq_none_iff real).mp number)
  rw [Bool.eq_false_iff, ne_eq, Value.lt_iff_place, Value.le_iff_place, hb]
  cases g.place? with
  | none => simp
  | some p => simp [not_lt]

theorem not_nan_equal (hv : v.isReal) (hw : w.isReal) (undefined : v = .nan ∨ w = .nan) :
    ¬ v.equal w = true := by
  rw [Value.equal_iff_place hv hw]
  rintro ⟨p, hp, hq⟩
  rcases undefined with rfl | rfl
  · cases hp
  · cases hq

/-- An undefined entry is within no bound of any other. -/
theorem AgreeWithin.numbers (h : AgreeWithin bound v w) (hv : v.isReal) (hw : w.isReal) :
    v ≠ .nan ∧ w ≠ .nan := by
  refine not_or.mp fun undefined => ?_
  have apart := not_nan_equal hv hw undefined
  rcases h with equal | ⟨d, g, hd, hg, le⟩
  · exact apart equal
  · have formed := (Value.sub_iff_subtracts hv hw).mp hd
    obtain ⟨p, _, hp, _⟩ := (Value.le_iff_place g bound).mp le
    rw [(formed.place?_magnitude hg hv hw apart).mpr undefined] at hp
    cases hp

theorem differ_within {d : Value} (real : bound.isReal) (number : bound ≠ .nan)
    (hv : v.isReal) (hw : w.isReal) (hd : v.sub w = .ok d) :
    differ (.within bound) v w = .ok false ↔ AgreeWithin bound v w ∨ v = .nan ∨ w = .nan := by
  by_cases equal : v.equal w = true
  · exact iff_of_true (differ_of_equal equal) (.inl (.inl equal))
  · have formed := (Value.sub_iff_subtracts hv hw).mp hd
    obtain ⟨g, hg, -, -⟩ := Value.exists_magnitude formed.isReal
    have computed : differ (.within bound) v w = .ok (bound.lt g) := by
      rw [differ, if_neg equal, hd, ok_bind, hg]
      rfl
    have within_iff : AgreeWithin bound v w ↔ g.le bound = true := by
      constructor
      · rintro (same | ⟨d', g', hd', hg', le⟩)
        · exact absurd same equal
        · obtain rfl := Except.ok.inj (hd.symm.trans hd')
          obtain rfl := Except.ok.inj (hg.symm.trans hg')
          exact le
      · exact fun le => .inr ⟨d, g, hd, hg, le⟩
    rw [computed, Except.ok.injEq, exceeds_iff real number, within_iff,
      formed.place?_magnitude hg hv hw equal]

end

section
variable {vs ws : List Value} {t : Tolerance}

/-- Nothing is found just if no entries differ, whatever the tolerance is. -/
theorem mismatches_eq_nil_iff (start : Nat) : mismatches t start vs ws = .ok [] ↔
    ∀ (i : Nat) (v w : Value), vs[i]? = some v → ws[i]? = some w → differ t v w = .ok false := by
  induction vs generalizing ws start with
  | nil => simp [mismatches]
  | cons v vs ih =>
    cases ws with
    | nil => simp [mismatches]
    | cons w ws =>
      rw [mismatches]
      constructor
      · intro found i a b ha hb
        obtain ⟨here, hhere, found⟩ := bind_eq_ok found
        obtain ⟨later, hlater, found⟩ := bind_eq_ok found
        cases here with
        | true => cases found
        | false =>
          obtain rfl : later = [] := Except.ok.inj found
          cases i with
          | zero =>
            cases ha
            cases hb
            exact hhere
          | succ i => exact (ih (start + 1)).mp hlater i a b ha hb
      · intro same
        rw [same 0 v w rfl rfl, ok_bind, (ih (start + 1)).mpr fun i => same (i + 1)]
        rfl

theorem nearLists_passes_iff {places : Option Int} {bound : Option Value}
    (asked : Tolerance.of? places bound = .ok t) : nearLists vs ws places bound = .ok () ↔
      vs.length = ws.length ∧ ∀ (i : Nat) (v w : Value), vs[i]? = some v → ws[i]? = some w →
        differ t v w = .ok false := by
  rw [nearLists, asked, ok_bind]
  by_cases same : vs.length = ws.length
  · rw [← mismatches_eq_nil_iff 0, and_iff_right same]
    change (if _ then _ else _) = _ ↔ _
    rw [if_neg (not_not.mpr same)]
    cases mismatches t 0 vs ws with
    | error f => exact iff_of_false (fun h => by cases h) (fun h => by cases h)
    | ok found =>
      cases found with
      | nil => exact iff_of_true rfl rfl
      | cons entry found => exact iff_of_false (fun h => by cases h) (fun h => by cases h)
  · refine iff_of_false (fun h => ?_) fun h => same h.1
    change (if _ then _ else _) = _ at h
    rw [if_pos same] at h
    cases h

end

/-- Lists of real numbers whose differences can be taken are accepted just if they have the same
length and at every position the entries are within the bound of each other or one of them is
undefined. So they are within the bound of each other just if they are accepted and none of their
entries is undefined. -/
theorem accepted_within {vs ws : List Value} {bound : Value}
    (left : ∀ v ∈ vs, v.isReal) (right : ∀ w ∈ ws, w.isReal)
    (formed : ∀ (i : Nat) (v w : Value), vs[i]? = some v → ws[i]? = some w →
      ∃ d, v.sub w = .ok d) (real : bound.isReal) (number : bound ≠ .nan) :
    (nearLists vs ws none (some bound) = .ok () ↔ vs.length = ws.length ∧
      ∀ (i : Nat) (v w : Value), vs[i]? = some v → ws[i]? = some w →
        AgreeWithin bound v w ∨ v = .nan ∨ w = .nan) ∧
    ((vs.length = ws.length ∧ ∀ (i : Nat) (v w : Value), vs[i]? = some v → ws[i]? = some w →
        AgreeWithin bound v w) ↔
      nearLists vs ws none (some bound) = .ok () ∧ .nan ∉ vs ∧ .nan ∉ ws) := by
  have accepted : nearLists vs ws none (some bound) = .ok () ↔ vs.length = ws.length ∧
      ∀ (i : Nat) (v w : Value), vs[i]? = some v → ws[i]? = some w →
        AgreeWithin bound v w ∨ v = .nan ∨ w = .nan := by
    rw [nearLists_passes_iff rfl]
    refine and_congr_right fun _ => forall_congr' fun i => forall_congr' fun v =>
      forall_congr' fun w => forall_congr' fun hv => forall_congr' fun hw => ?_
    obtain ⟨d, hd⟩ := formed i v w hv hw
    exact differ_within real number (left v (List.mem_of_getElem? hv))
      (right w (List.mem_of_getElem? hw)) hd
  refine ⟨accepted, ?_⟩
  rw [accepted]
  constructor
  · rintro ⟨same, agree⟩
    have numbers (i : Nat) (v w : Value) (hv : vs[i]? = some v) (hw : ws[i]? = some w) :
        v ≠ .nan ∧ w ≠ .nan :=
      (agree i v w hv hw).numbers (left v (List.mem_of_getElem? hv))
        (right w (List.mem_of_getElem? hw))
    refine ⟨⟨same, fun i v w hv hw => .inl (agree i v w hv hw)⟩, fun mem => ?_, fun mem => ?_⟩
    · obtain ⟨i, hi, hv⟩ := List.mem_iff_getElem.mp mem
      have hw := List.getElem?_eq_getElem (same ▸ hi)
      exact (numbers i _ _ (List.getElem?_eq_some_iff.mpr ⟨hi, hv⟩) hw).1 rfl
    · obtain ⟨i, hi, hw⟩ := List.mem_iff_getElem.mp mem
      have hv := List.getElem?_eq_getElem (same.symm ▸ hi)
      exact (numbers i _ _ hv (List.getElem?_eq_some_iff.mpr ⟨hi, hw⟩)).2 rfl
  · rintro ⟨⟨same, agree⟩, numbersV, numbersW⟩
    refine ⟨same, fun i v w hv hw => ?_⟩
    rcases agree i v w hv hw with agree | rfl | rfl
    · exact agree
    · exact absurd (List.mem_of_getElem? hv) numbersV
    · exact absurd (List.mem_of_getElem? hw) numbersW

/-- One half apart is within one half, and what is undefined is accepted next to two. -/
theorem half_and_undefined_accepted :
    nearLists [.double 1.5, .nan] [.double 1.0, .int 2] none (some (.double 0.5)) = .ok () := by
  have half : AgreeWithin (.double 0.5) (.double 1.5) (.double 1.0) :=
    .inr ⟨_, _, rfl, rfl, by decide +kernel⟩
  have number : Value.double 0.5 ≠ .nan := Value.ne_nan_of_toDouble (x := 0.5) rfl (by decide)
  refine (accepted_within (by simp [Value.isReal, Value.nan]) (by simp [Value.isReal])
    (fun i v w hv hw => ?_) rfl number).1.mpr ⟨rfl, fun i v w hv hw => ?_⟩
  · rcases i with _ | _ | i
    · cases hv
      cases hw
      exact ⟨_, rfl⟩
    · cases hv
      cases hw
      exact ⟨_, rfl⟩
    · cases hv
  · rcases i with _ | _ | i
    · cases hv
      cases hw
      exact .inl half
    · cases hv
      exact .inr (.inl rfl)
    · cases hv

/-- An undefined entry is accepted next to zero, and it is not within one half of it. -/
theorem undefined_accepted_next_to_zero :
    nearLists [.nan] [.double 0.0] none (some (.double 0.5)) = .ok () ∧
    ¬ AgreeWithin (.double 0.5) .nan (.double 0.0) :=
  ⟨rfl, fun agree => (agree.numbers rfl rfl).1 rfl⟩

end Assertion

end FiniteCalculus

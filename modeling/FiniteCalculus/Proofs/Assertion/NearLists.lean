import FiniteCalculus.Assertion.NearLists
import FiniteCalculus.Proofs.Decimal.Places
import FiniteCalculus.Proofs.Value.Differences

/-! Which lists agree at a decimal place. Two entries agree if they are equal or if their difference
is at most half of the unit at that place, whatever the place is. The entries that do not agree are
found in the order of their positions, and the first nine of them are listed. -/

namespace FiniteCalculus
set_option autoImplicit false

namespace Assertion

/-- Two entries are equal, or their difference without its sign is a number that is at most half of
the unit at the decimal place. -/
def AgreeAt (places : Int) (v w : Value) : Prop :=
  v.equal w = true ∨ ∃ d g q, v.sub w = .ok d ∧ d.magnitude = .ok g ∧ g.toRat? = some q ∧
    q ≤ 10 ^ (-places) / 2

/-- The difference without its sign leaves the range of doubles when it is rounded. -/
def TooLargeAt (places : Int) (v w : Value) : Prop :=
  ∃ d x, v.sub w = .ok d ∧ d.magnitude = .ok (.double x) ∧
    Decimal.roundDouble x places = .error .roundedTooLarge

section
variable {v w : Value} {places : Int}

theorem AgreeAt.coarser {coarser : Int} (h : AgreeAt places v w) (le : coarser ≤ places) :
    AgreeAt coarser v w := by
  rcases h with equal | ⟨d, g, q, hd, hg, hq, small⟩
  · exact .inl equal
  · exact .inr ⟨d, g, q, hd, hg, hq, small.trans (Decimal.halfUnit_anti le)⟩

theorem AgreeAt.swap (hv : v.isReal) (hw : w.isReal) (h : AgreeAt places v w) :
    AgreeAt places w v := by
  rcases h with equal | ⟨d, g, q, hd, hg, hq, small⟩
  · exact .inl ((Value.equal_comm hw hv).trans equal)
  · obtain ⟨d', hd', same⟩ := Value.exists_sub_swap hv hw hd
    exact .inr ⟨d', g, q, hd', same.trans hg, hq, small⟩

theorem staysAt_integer {g : Value} {n : Int} (hn : g.integer? = some n) :
    staysAt places g = .ok (Decimal.roundInt n places != 0) := by
  cases g <;> cases hn <;> rfl

theorem staysAt_double (x : Float) :
    staysAt places (.double x) = do return (← Decimal.roundDouble x places) != 0.0 := rfl

theorem staysAt_double_of_le {x : Float} {q : ℚ} (hx : Double.toRat? x = some q)
    (small : |q| ≤ Decimal.halfUnit places) : staysAt places (.double x) = .ok false := by
  obtain ⟨y, rounded, zero⟩ := Decimal.roundDouble_of_le hx small
  have same : (y != 0.0) = false := by rw [bne, Double.beq_zero_iff.mpr zero, Bool.not_true]
  rw [staysAt_double, rounded]
  exact congrArg Except.ok same

theorem staysAt_double_of_ne_zero {x y : Float} (rounded : Decimal.roundDouble x places = .ok y)
    (nonzero : Double.toRat? y ≠ some 0) : staysAt places (.double x) = .ok true := by
  have apart : (y != 0.0) = true := by
    rw [bne, Bool.eq_false_iff.mpr (mt Double.beq_zero_iff.mp nonzero), Bool.not_false]
  rw [staysAt_double, rounded]
  exact congrArg Except.ok apart

/-- A number that is not negative vanishes just if it is at most half of a unit. What is no number
does not. -/
theorem staysAt_cases {g : Value} (real : g.isReal) (nonneg : ∀ q, g.toRat? = some q → 0 ≤ q) :
    (staysAt places g = .ok false ∧ ∃ q, g.toRat? = some q ∧ q ≤ Decimal.halfUnit places) ∨
    (∀ q, g.toRat? = some q → Decimal.halfUnit places < q) ∧
      (staysAt places g = .ok true ∨ staysAt places g = .error .roundedTooLarge ∧
        ∃ x, g = .double x ∧ Decimal.roundDouble x places = .error .roundedTooLarge) := by
  cases hn : g.integer? with
  | some n =>
    have value := Value.toRat?_of_integer? hn
    have size : |(n : ℚ)| = n := abs_of_nonneg (nonneg n value)
    have zero := Decimal.roundInt_eq_zero_iff n places
    rw [size] at zero
    rw [staysAt_integer hn]
    by_cases small : (n : ℚ) ≤ Decimal.halfUnit places
    · rw [zero.mpr small]
      exact .inl ⟨rfl, n, value, small⟩
    · refine .inr ⟨fun q hq => ?_, .inl (congrArg Except.ok (bne_iff_ne.mpr (mt zero.mp small)))⟩
      rw [← Option.some.inj (value.symm.trans hq)]
      exact not_le.mp small
  | none =>
    obtain ⟨x, rfl⟩ : ∃ x, g = .double x := by
      cases g with
      | double x => exact ⟨x, rfl⟩
      | int _ | bool _ => cases hn
      | _ => cases real
    cases hq : Double.toRat? x with
    | none =>
      refine .inr ⟨fun q hq' => ?_, .inl ?_⟩
      · cases hq.symm.trans hq'
      · exact staysAt_double_of_ne_zero (Decimal.roundDouble_of_none hq) (by rw [hq]; simp)
    | some q =>
      have size : |q| = q := abs_of_nonneg (nonneg q hq)
      by_cases small : q ≤ Decimal.halfUnit places
      · exact .inl ⟨staysAt_double_of_le hq (size.trans_le small), q, hq, small⟩
      · refine .inr ⟨fun p hp => ?_, ?_⟩
        · rw [← Option.some.inj (hq.symm.trans hp)]
          exact not_le.mp small
        · rcases Decimal.roundDouble_of_lt hq (size.symm ▸ not_le.mp small) with
            error | ⟨y, rounded, nonzero⟩
          · refine .inr ⟨?_, x, rfl, error⟩
            rw [staysAt_double, error]
            rfl
          · exact .inl (staysAt_double_of_ne_zero rounded nonzero)

theorem differ_cases (places : Int) {d : Value} (hv : v.isReal) (hw : w.isReal)
    (formed : v.sub w = .ok d) :
    (differ (.places places) v w = .ok false ∧ AgreeAt places v w) ∨
    ¬ AgreeAt places v w ∧ (differ (.places places) v w = .ok true ∨
      differ (.places places) v w = .error .roundedTooLarge ∧ TooLargeAt places v w) := by
  by_cases equal : v.equal w = true
  · exact .inl ⟨differ_of_equal equal, .inl equal⟩
  · obtain ⟨g, hg, real, nonneg⟩ :=
      Value.exists_magnitude ((Value.sub_iff_subtracts hv hw).mp formed).isReal
    have computed : differ (.places places) v w = staysAt places g := by
      rw [differ, if_neg equal, formed, ok_bind, hg]
      rfl
    rw [computed]
    rcases staysAt_cases real nonneg with ⟨vanishes, q, hq, small⟩ | ⟨large, stays⟩
    · exact .inl ⟨vanishes, .inr ⟨d, g, q, formed, hg, hq, small⟩⟩
    · have apart : ¬ AgreeAt places v w := by
        rintro (same | ⟨d', g', q, hd, hg', hq, small⟩)
        · exact equal same
        · obtain rfl := Except.ok.inj (formed.symm.trans hd)
          obtain rfl := Except.ok.inj (hg.symm.trans hg')
          exact absurd small (not_le.mpr (large q hq))
      rcases stays with stays | ⟨error, x, rfl, rounded⟩
      · exact .inr ⟨apart, .inl stays⟩
      · exact .inr ⟨apart, .inr ⟨error, d, x, formed, hg, rounded⟩⟩

end

/-! The entries of two lists. -/

/-- The lists have the same length, and all their entries agree. -/
def Agree (places : Int) (vs ws : List Value) : Prop :=
  vs.length = ws.length ∧
    ∀ (i : Nat) (v w : Value), vs[i]? = some v → ws[i]? = some w → AgreeAt places v w

/-- There are entries at a position, and they do not agree. -/
def DifferAt (places : Int) (vs ws : List Value) (i : Nat) : Prop :=
  ∃ v w, vs[i]? = some v ∧ ws[i]? = some w ∧ ¬ AgreeAt places v w

/-- Real numbers whose difference can be taken are at every position of both lists. -/
def Subtractable (vs ws : List Value) : Prop :=
  ∀ (i : Nat) (v w : Value), vs[i]? = some v → ws[i]? = some w →
    (v.isReal ∧ w.isReal) ∧ ∃ d, v.sub w = .ok d

/-- The entries that do not agree, in the order of their positions, which count from `start` on. -/
structure Finds (places : Int) (vs ws : List Value) (start : Nat)
    (found : List (Nat × Value × Value)) : Prop where
  increasing : found.Pairwise fun a b => a.1 < b.1
  mem_iff : ∀ i v w, (i, v, w) ∈ found ↔
    ∃ j, i = start + j ∧ vs[j]? = some v ∧ ws[j]? = some w ∧ ¬ AgreeAt places v w

section
variable {places : Int} {vs ws : List Value} {start : Nat} {v w : Value}

theorem Subtractable.tail (h : Subtractable (v :: vs) (w :: ws)) : Subtractable vs ws :=
  fun i => h (i + 1)

theorem Subtractable.swap (h : Subtractable vs ws) : Subtractable ws vs := by
  intro i w v hw hv
  obtain ⟨⟨realV, realW⟩, d, formed⟩ := h i v w hv hw
  obtain ⟨d', swapped, _⟩ := Value.exists_sub_swap realV realW formed
  exact ⟨⟨realW, realV⟩, d', swapped⟩

theorem Agree.swap (h : Subtractable vs ws) (agree : Agree places vs ws) :
    Agree places ws vs := by
  refine ⟨agree.1.symm, fun i w v hw hv => ?_⟩
  obtain ⟨⟨realV, realW⟩, _⟩ := h i v w hv hw
  exact (agree.2 i v w hv hw).swap realV realW

theorem Agree.coarser {coarser : Int} (agree : Agree places vs ws) (le : coarser ≤ places) :
    Agree coarser vs ws :=
  ⟨agree.1, fun i v w hv hw => (agree.2 i v w hv hw).coarser le⟩

/-- The first position, or one of those after it. -/
theorem exists_index_succ {P : Nat → Prop} {i : Nat} : (∃ j, i = start + j ∧ P j) ↔
    i = start ∧ P 0 ∨ ∃ j, i = start + 1 + j ∧ P (j + 1) := by
  constructor
  · rintro ⟨j, rfl, hj⟩
    cases j with
    | zero => exact .inl ⟨rfl, hj⟩
    | succ j => exact .inr ⟨j, by omega, hj⟩
  · rintro (⟨rfl, h⟩ | ⟨j, rfl, hj⟩)
    · exact ⟨0, rfl, h⟩
    · exact ⟨j + 1, by omega, hj⟩

theorem Finds.le_of_mem {found : List (Nat × Value × Value)} (h : Finds places vs ws start found)
    {entry : Nat × Value × Value} (mem : entry ∈ found) : start ≤ entry.1 := by
  obtain ⟨j, position, _⟩ := (h.mem_iff entry.1 entry.2.1 entry.2.2).mp mem
  omega

section
variable {later : List (Nat × Value × Value)} (h : Finds places vs ws (start + 1) later)
include h

theorem Finds.cons_agree (agree : AgreeAt places v w) :
    Finds places (v :: vs) (w :: ws) start later := by
  refine ⟨h.increasing, fun i a b => ?_⟩
  rw [exists_index_succ, h.mem_iff, List.getElem?_cons_zero, List.getElem?_cons_zero]
  constructor
  · exact .inr
  · rintro (⟨_, ha, hb, differ⟩ | rest)
    · obtain rfl := Option.some.inj ha
      obtain rfl := Option.some.inj hb
      exact absurd agree differ
    · exact rest

theorem Finds.cons_differ (differ : ¬ AgreeAt places v w) :
    Finds places (v :: vs) (w :: ws) start ((start, v, w) :: later) := by
  refine ⟨List.pairwise_cons.mpr ⟨fun entry mem => h.le_of_mem mem, h.increasing⟩,
    fun i a b => ?_⟩
  rw [exists_index_succ, List.mem_cons, h.mem_iff, List.getElem?_cons_zero,
    List.getElem?_cons_zero]
  apply or_congr_left
  constructor
  · intro same
    cases same
    exact ⟨rfl, rfl, rfl, differ⟩
  · rintro ⟨position, ha, hb, _⟩
    rw [position, Option.some.inj ha, Option.some.inj hb]

end

/-- The entries are compared one after the other, and all of them are found that do not agree, as
long as no difference is too large to be rounded. -/
theorem mismatches_cases (places : Int) (h : Subtractable vs ws) (start : Nat) :
    (mismatches (.places places) start vs ws = .error .roundedTooLarge ∧
      ∃ (i : Nat) (v w : Value), vs[i]? = some v ∧ ws[i]? = some w ∧ ¬ AgreeAt places v w ∧
        TooLargeAt places v w) ∨
    ∃ found, mismatches (.places places) start vs ws = .ok found ∧
      Finds places vs ws start found := by
  induction vs generalizing ws start with
  | nil => exact .inr ⟨[], rfl, .nil, by simp⟩
  | cons v vs ih =>
    cases ws with
    | nil => exact .inr ⟨[], rfl, .nil, by simp⟩
    | cons w ws =>
      obtain ⟨⟨realV, realW⟩, d, formed⟩ := h 0 v w rfl rfl
      have rest := ih h.tail (start + 1)
      rw [mismatches]
      rcases differ_cases places realV realW formed with
        ⟨here, agree⟩ | ⟨apart, here | ⟨here, large⟩⟩
      · rw [here]
        rcases rest with ⟨later, i, rest⟩ | ⟨found, later, finds⟩
        · exact .inl ⟨by rw [later]; rfl, i + 1, rest⟩
        · exact .inr ⟨found, by rw [later]; rfl, finds.cons_agree agree⟩
      · rw [here]
        rcases rest with ⟨later, i, rest⟩ | ⟨found, later, finds⟩
        · exact .inl ⟨by rw [later]; rfl, i + 1, rest⟩
        · exact .inr ⟨_, by rw [later]; rfl, finds.cons_differ apart⟩
      · exact .inl ⟨by rw [here]; rfl, 0, v, w, rfl, rfl, apart, large⟩

end

/-! What is reported of the entries that do not agree. -/

/-- The failure tells how many positions have entries that do not agree, and lists the first nine of
these positions with their entries and differences, one to a line. -/
structure Reports (places : Int) (vs ws : List Value) (failure : Failure) (found : List Nat)
    (listed : List Mismatch) : Prop where
  counted : failure = .entries found.length listed
  increasing : found.Pairwise (· < ·)
  complete : ∀ i, i ∈ found ↔ DifferAt places vs ws i
  first : listed.map (·.position) = found.take 9
  entries : ∀ m ∈ listed, vs[m.position]? = some m.left ∧ ws[m.position]? = some m.right ∧
    m.right.sub m.left = .ok m.gap
  text : failure.message = toString found.length ++ " elements differ.\n" ++
    (if found.length ≤ 9 then "Differing elements:\n" else "First few differing elements:\n") ++
    "\n".intercalate (listed.map fun m =>
      "  [" ++ toString m.position ++ "] " ++ m.left.toText ++ " != " ++ m.right.toText ++
        "    (difference: " ++ m.gap.toText ++ ")")

theorem message_entries (count : Nat) (listed : List Mismatch) :
    (Failure.entries count listed).message = toString count ++ " elements differ.\n" ++
      (if count ≤ listed.length then "Differing elements:\n"
        else "First few differing elements:\n") ++
      "\n".intercalate (listed.map fun m =>
        "  [" ++ toString m.position ++ "] " ++ m.left.toText ++ " != " ++ m.right.toText ++
          "    (difference: " ++ m.gap.toText ++ ")") := rfl

theorem exists_mapM_mismatch {found : List (Nat × Value × Value)}
    (h : ∀ i v w, (i, v, w) ∈ found → ∃ d, w.sub v = .ok d) :
    ∃ listed, found.mapM mismatch = .ok listed ∧
      listed.map (·.position) = found.map (·.1) ∧
      ∀ m ∈ listed, (m.position, m.left, m.right) ∈ found ∧ m.right.sub m.left = .ok m.gap := by
  induction found with
  | nil => exact ⟨[], rfl, rfl, by simp⟩
  | cons entry found ih =>
    obtain ⟨i, v, w⟩ := entry
    obtain ⟨d, formed⟩ := h i v w List.mem_cons_self
    obtain ⟨listed, computed, positions, entries⟩ :=
      ih fun j a b mem => h j a b (List.mem_cons_of_mem _ mem)
    refine ⟨⟨i, v, w, d⟩ :: listed, ?_, ?_, fun m mem => ?_⟩
    · rw [List.mapM_cons, computed, mismatch, formed]
      rfl
    · rw [List.map_cons, List.map_cons, positions]
    · rcases List.mem_cons.mp mem with rfl | mem
      · exact ⟨List.mem_cons_self, formed⟩
      · exact ⟨List.mem_cons_of_mem _ (entries m mem).1, (entries m mem).2⟩

section
variable {places : Int} {vs ws : List Value} {found : List (Nat × Value × Value)}

theorem Finds.mem_positions_iff (h : Finds places vs ws 0 found) (i : Nat) :
    i ∈ found.map (·.1) ↔ DifferAt places vs ws i := by
  rw [List.mem_map]
  constructor
  · rintro ⟨⟨_, v, w⟩, mem, rfl⟩
    obtain ⟨j, position, differ⟩ := (h.mem_iff _ v w).mp mem
    rw [Nat.zero_add] at position
    exact ⟨v, w, position ▸ differ⟩
  · rintro ⟨v, w, differ⟩
    exact ⟨(i, v, w), (h.mem_iff i v w).mpr ⟨i, (Nat.zero_add i).symm, differ⟩, rfl⟩

theorem Finds.eq_nil_iff (h : Finds places vs ws 0 found) (same : vs.length = ws.length) :
    found = [] ↔ Agree places vs ws := by
  constructor
  · rintro rfl
    refine ⟨same, fun i v w hv hw => ?_⟩
    by_contra differ
    cases (h.mem_positions_iff i).mpr ⟨v, w, hv, hw, differ⟩
  · intro agree
    refine List.eq_nil_iff_forall_not_mem.mpr fun entry mem => ?_
    obtain ⟨v, w, hv, hw, differ⟩ := (h.mem_positions_iff entry.1).mp (List.mem_map_of_mem mem)
    exact differ (agree.2 _ v w hv hw)

theorem Finds.reports (h : Finds places vs ws 0 found) (formed : Subtractable vs ws) :
    ∃ listed, Reports places vs ws (entriesFailure found) (found.map (·.1)) listed := by
  have at_position {i : Nat} {v w : Value} (mem : (i, v, w) ∈ found.take listedEntries) :
      vs[i]? = some v ∧ ws[i]? = some w := by
    obtain ⟨j, position, hv, hw, _⟩ := (h.mem_iff i v w).mp (List.mem_of_mem_take mem)
    rw [Nat.zero_add] at position
    exact position ▸ ⟨hv, hw⟩
  have gaps (i : Nat) (v w : Value) (mem : (i, v, w) ∈ found.take listedEntries) :
      ∃ d, w.sub v = .ok d := by
    obtain ⟨hv, hw⟩ := at_position mem
    exact (formed.swap i w v hw hv).2
  obtain ⟨listed, computed, positions, entries⟩ := exists_mapM_mismatch gaps
  have failure : entriesFailure found = .entries found.length listed := by
    rw [entriesFailure, computed]
  have size : listed.length = min 9 found.length := by
    have := congrArg List.length positions
    rwa [List.length_map, List.length_map, List.length_take] at this
  have few : found.length ≤ listed.length ↔ found.length ≤ 9 := by omega
  exact ⟨listed,
    { counted := by rw [failure, List.length_map]
      increasing := List.pairwise_map.mpr h.increasing
      complete := h.mem_positions_iff
      first := positions.trans List.map_take
      entries := fun m mem =>
        ⟨(at_position (entries m mem).1).1, (at_position (entries m mem).1).2, (entries m mem).2⟩
      text := by rw [failure, message_entries, List.length_map, if_congr few rfl rfl] }⟩

end

section
variable {vs ws : List Value} (places : Option Int)

theorem tolerance_of_places : Tolerance.of? places none = .ok (.places (places.getD 7)) := by
  cases places <;> rfl

theorem nearLists_of_length_ne (apart : vs.length ≠ ws.length) :
    nearLists vs ws places none = .error (.lengths vs.length ws.length) := by
  rw [nearLists, tolerance_of_places]
  exact if_pos apart

/-- The outcome for lists of the same length is that of the search. -/
theorem nearLists_of_length_eq (same : vs.length = ws.length) : nearLists vs ws places none =
    match mismatches (.places (places.getD 7)) 0 vs ws with
    | .error f => .error (.fault f)
    | .ok [] => .ok ()
    | .ok found => .error (entriesFailure found) := by
  rw [nearLists, tolerance_of_places]
  exact if_neg (not_not.mpr same)

variable (h : Subtractable vs ws)
include h

/-- Lists of the same length agree, a difference is too large to be rounded, or the entries that do
not agree are reported. -/
theorem nearLists_cases (same : vs.length = ws.length) :
    (nearLists vs ws places none = .ok () ∧ Agree (places.getD 7) vs ws) ∨
    ¬ Agree (places.getD 7) vs ws ∧
      ∃ failure, nearLists vs ws places none = .error failure ∧
        (failure = .fault .roundedTooLarge ∧ (∃ (i : Nat) (v w : Value), vs[i]? = some v ∧
          ws[i]? = some w ∧ ¬ AgreeAt (places.getD 7) v w ∧ TooLargeAt (places.getD 7) v w) ∨
        ∃ found listed, Reports (places.getD 7) vs ws failure found listed) := by
  rw [nearLists_of_length_eq places same]
  rcases mismatches_cases (places.getD 7) h 0 with
    ⟨error, i, v, w, hv, hw, apart, large⟩ | ⟨found, ok, finds⟩
  · rw [error]
    refine .inr ⟨fun agree => apart (agree.2 i v w hv hw), _, rfl,
      .inl ⟨rfl, i, v, w, hv, hw, apart, large⟩⟩
  · rw [ok]
    cases found with
    | nil => exact .inl ⟨rfl, (finds.eq_nil_iff same).mp rfl⟩
    | cons entry found =>
      obtain ⟨listed, reports⟩ := finds.reports h
      refine .inr ⟨fun agree => ?_, _, rfl, .inr ⟨_, listed, reports⟩⟩
      cases (finds.eq_nil_iff same).mpr agree

theorem nearLists_eq_ok_iff :
    nearLists vs ws places none = .ok () ↔ Agree (places.getD 7) vs ws := by
  rcases eq_or_ne vs.length ws.length with same | apart
  · rcases nearLists_cases places h same with ⟨passes, agree⟩ | ⟨differ, failure, fails, _⟩
    · exact iff_of_true passes agree
    · refine iff_of_false (fun passes => ?_) differ
      cases passes.symm.trans fails
  · refine iff_of_false (fun passes => ?_) fun agree => apart agree.1
    cases passes.symm.trans (nearLists_of_length_ne places apart)

end

end Assertion

end FiniteCalculus

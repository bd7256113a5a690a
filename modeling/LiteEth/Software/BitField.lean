/-
`software/bitfield.py`: the registers of `mdio_regs.py` as Python classes whose bit fields are descriptors over one
unbounded integer, `packed`.
-/
import LiteEth.Software.IntBits
import Mathlib.Tactic

namespace LiteEth.Software

/-- The exceptions that are raised. -/
inductive PyError
  | valueError (message : String)
  | attributeError (message : String)
  deriving DecidableEq

/-- `#x` of a format string. -/
def hex (value : ℤ) : String :=
  (if value < 0 then "-0x" else "0x") ++ String.ofList (Nat.toDigits 16 value.natAbs)

/-- An instance: `packed`, and the attributes that no descriptor handles. -/
structure Obj where
  packed : ℤ
  attrs : String → Option ℤ

/-- `packed` is 0 in the class. -/
def Obj.new : Obj := { packed := 0, attrs := fun _ => none }

/-- A bit field: its name, its lowest bit and its width. -/
structure BitField where
  name : String
  offset : ℕ
  width : ℕ
  deriving DecidableEq

/-- `BitFieldInt.__new__`. -/
def bitFieldInt (value : ℤ) (width : ℕ) : Except PyError ℤ :=
  let uint_max : ℤ := 2 ^ width - 1
  if value > uint_max then
    .error (.valueError
      s!"BitFieldInt cannot be > 2**{width}-1 {hex uint_max} {uint_max}. Given: {hex value} {value}")
  else if value < 0 then
    .error (.valueError s!"BitFieldInt cannot be < 0. Given: {hex value} {value}")
  else
    .ok value

namespace BitField

variable (f : BitField)

/-- The bits of the field. -/
def Covers (k : ℕ) : Prop := f.offset ≤ k ∧ k < f.offset + f.width

instance (k : ℕ) : Decidable (f.Covers k) := inferInstanceAs (Decidable (_ ∧ _))

/-- The bits of a value that fit. -/
def mask : ℤ := 2 ^ f.width - 1

/-- `BitFieldProperty.__get__`; on the class, `packed` is taken as 0. -/
def get (obj : Option Obj) : Except PyError ℤ :=
  let packed : ℤ := match obj with
    | none => 0
    | some o => o.packed
  bitFieldInt ((packed >>> f.offset).land f.mask) f.width

/-- `BitFieldProperty.__set__`, which calls the `fset` of the metaclass. -/
def fset (val : ℤ) : EStateM PyError Obj Unit := do
  -- check we don't exceed the width of the field
  if val.land f.mask ≠ val then
    throw (.valueError ("attempted to assign value that does not fit in bit field width " ++ toString f.width))
  -- clear the field
  modify fun o => { o with packed := o.packed.land (f.mask <<< f.offset).lnot }
  -- set the field
  modify fun o => { o with packed := o.packed.lor ((val.land f.mask) <<< f.offset) }

end BitField

/-- A class: its bit fields, which share no bit. `packed` is the register itself. -/
structure BitFieldUnion where
  fields : List BitField
  nodup : (fields.map BitField.name).Nodup
  packed_reserved : "packed" ∉ fields.map BitField.name
  disjoint : ∀ f ∈ fields, ∀ g ∈ fields, f ≠ g → ∀ k, f.Covers k → ¬ g.Covers k

namespace BitFieldUnion

variable (c : BitFieldUnion)

/-- The descriptor of a name. -/
def property (name : String) : Option BitField := c.fields.find? fun f => f.name == name

/-- An assignment to an attribute: to the bit field of that name, to `packed`, or to an ordinary one. -/
def setattr (name : String) (value : ℤ) : EStateM PyError Obj Unit :=
  match c.property name with
  | some f => f.fset value
  | none =>
    if name = "packed" then
      modify fun o => { o with packed := value }
    else
      modify fun o => { o with attrs := Function.update o.attrs name (some value) }

/-- The value of an attribute. -/
def getattr (name : String) (o : Obj) : Except PyError ℤ :=
  match c.property name with
  | some f => f.get (some o)
  | none =>
    if name = "packed" then
      .ok o.packed
    else
      match o.attrs name with
      | some value => .ok value
      | none => .error (.attributeError name)

/-- The loop of `__init__`. -/
def setAll : List (String × ℤ) → EStateM PyError Obj Unit
  | [] => pure ()
  | (k, v) :: kwargs => do
    c.setattr k v
    setAll kwargs

/-- `__init__`, with the keyword arguments in the order they are given in. -/
def init (kwargs : List (String × ℤ)) : Except PyError Obj :=
  if "packed" ∈ kwargs.map Prod.fst ∧ kwargs.length > 1 then
    .error (.attributeError "unable to set both `packed` aggregate and another bit field called `packed`")
  else
    match (c.setAll kwargs).run Obj.new with
    | .ok _ o => .ok o
    | .error e _ => .error e

end BitFieldUnion

/-! ## A field of an integer -/

namespace BitField

variable (f : BitField)

/-- The integer with a field replaced. -/
def put (val packed : ℤ) : ℤ := (packed.land (f.mask <<< f.offset).lnot).lor ((val.land f.mask) <<< f.offset)

@[simp]
theorem testBit_mask (k : ℕ) : f.mask.testBit k = decide (k < f.width) := Int.testBit_two_pow_sub_one f.width k

theorem testBit_put (val packed : ℤ) (k : ℕ) :
    (f.put val packed).testBit k = if f.Covers k then val.testBit (k - f.offset) else packed.testBit k := by
  simp only [put, Int.testBit_lor, Int.testBit_land, Int.testBit_lnot, Int.testBit_shiftLeft, testBit_mask, Covers]
  by_cases lower : f.offset ≤ k
  · by_cases upper : k < f.offset + f.width
    · have inside : k - f.offset < f.width := by omega
      simp [lower, upper, inside]
    · have outside : ¬ k - f.offset < f.width := by omega
      simp [lower, upper, outside]
  · simp [lower]

/-- What `__get__` reads. -/
def value (packed : ℤ) : ℤ := (packed >>> f.offset).land f.mask

theorem testBit_value (packed : ℤ) (k : ℕ) :
    (f.value packed).testBit k = (packed.testBit (f.offset + k) && decide (k < f.width)) := by
  rw [value, Int.testBit_land, Int.testBit_shiftRight, testBit_mask]

theorem value_bounds (packed : ℤ) : 0 ≤ f.value packed ∧ f.value packed < 2 ^ f.width := by
  rw [← Int.testBit_eq_false_iff]
  intro k hk
  rw [testBit_value, decide_eq_false (Nat.not_lt.2 hk), Bool.and_false]

/-- Reading a field never raises. -/
theorem get_eq (o : Obj) : f.get (some o) = .ok (f.value o.packed) := by
  obtain ⟨nonneg, lt⟩ := f.value_bounds o.packed
  show bitFieldInt (f.value o.packed) f.width = _
  rw [bitFieldInt, if_neg (by omega), if_neg (by omega)]

theorem value_put {val : ℤ} (packed : ℤ) (fits : 0 ≤ val ∧ val < 2 ^ f.width) :
    f.value (f.put val packed) = val := by
  refine Int.eq_of_testBit_eq fun k => ?_
  rw [testBit_value, testBit_put]
  by_cases low : k < f.width
  · rw [if_pos ⟨Nat.le_add_right _ _, Nat.add_lt_add_left low _⟩]
    simp [low]
  · rw [decide_eq_false low, Bool.and_false]
    exact ((Int.testBit_eq_false_iff val f.width).2 fits k (Nat.le_of_not_lt low)).symm

theorem value_put_of_disjoint {g : BitField} (val packed : ℤ) (disjoint : ∀ k, f.Covers k → ¬ g.Covers k) :
    g.value (f.put val packed) = g.value packed := by
  refine Int.eq_of_testBit_eq fun k => ?_
  rw [testBit_value, testBit_value, testBit_put]
  by_cases low : k < g.width
  · rw [if_neg fun covered => disjoint _ covered ⟨Nat.le_add_right _ _, Nat.add_lt_add_left low _⟩]
  · simp [low]

theorem put_comm {g : BitField} (v w packed : ℤ) (disjoint : ∀ k, f.Covers k → ¬ g.Covers k) :
    f.put v (g.put w packed) = g.put w (f.put v packed) := by
  refine Int.eq_of_testBit_eq fun k => ?_
  rw [testBit_put, testBit_put, testBit_put, testBit_put]
  by_cases covered : f.Covers k
  · rw [if_pos covered, if_neg (disjoint k covered), if_pos covered]
  · rw [if_neg covered, if_neg covered]

theorem put_put (v packed : ℤ) : f.put v (f.put v packed) = f.put v packed := by
  refine Int.eq_of_testBit_eq fun k => ?_
  rw [testBit_put, testBit_put]
  split <;> rfl

/-! ## Assignments -/

theorem fset_ok {val : ℤ} (o : Obj) (fits : 0 ≤ val ∧ val < 2 ^ f.width) :
    (f.fset val).run o = .ok () { o with packed := f.put val o.packed } := by
  have fits : val.land f.mask = val := (Int.land_two_pow_sub_one_eq_iff val f.width).2 fits
  rw [fset, if_neg (not_not_intro fits)]
  rfl

theorem fset_error {val : ℤ} (o : Obj) (over_wide : ¬ (0 ≤ val ∧ val < 2 ^ f.width)) :
    (f.fset val).run o = .error
      (.valueError ("attempted to assign value that does not fit in bit field width " ++ toString f.width)) o := by
  have raises : val.land f.mask ≠ val := fun fits => over_wide ((Int.land_two_pow_sub_one_eq_iff val f.width).1 fits)
  rw [fset, if_pos raises]
  rfl

end BitField

/-! ## An instance -/

section Run

variable {α β : Type} {x : EStateM PyError Obj α} {f : α → EStateM PyError Obj β}

/-- A sequence that does not raise. -/
theorem run_bind_eq_ok {o o' : Obj} {b : β} :
    (x >>= f).run o = .ok b o' ↔ ∃ a o₁, x.run o = .ok a o₁ ∧ (f a).run o₁ = .ok b o' := by
  show EStateM.bind x f o = .ok b o' ↔ _
  unfold EStateM.bind
  cases ran : x o with
  | ok a o₁ =>
    constructor
    · exact fun rest => ⟨a, o₁, ran, rest⟩
    · rintro ⟨a', o₁', ran', rest⟩
      obtain ⟨rfl, rfl⟩ : a = a' ∧ o₁ = o₁' := by simpa using ran.symm.trans ran'
      exact rest
  | error e o₁ =>
    constructor
    · intro raised
      cases raised
    · rintro ⟨a', o₁', ran', -⟩
      cases ran.symm.trans ran'

end Run

namespace BitFieldUnion

variable (c : BitFieldUnion)

theorem property_of_mem {f : BitField} (member : f ∈ c.fields) : c.property f.name = some f := by
  unfold property
  cases found : c.fields.find? fun g => g.name == f.name with
  | none =>
    have := List.find?_eq_none.1 found f member
    simp at this
  | some g =>
    have same : g.name = f.name := by simpa using List.find?_some found
    rw [List.inj_on_of_nodup_map c.nodup (List.mem_of_find?_eq_some found) member same]

theorem setattr_of_mem {f : BitField} (member : f ∈ c.fields) (v : ℤ) : c.setattr f.name v = f.fset v := by
  rw [setattr, c.property_of_mem member]

theorem getattr_of_mem {f : BitField} (member : f ∈ c.fields) (o : Obj) :
    c.getattr f.name o = .ok (f.value o.packed) := by
  rw [getattr, c.property_of_mem member]
  exact f.get_eq o

/-- The instance after an assignment, whether it raises or not. -/
def after (name : String) (v : ℤ) (o : Obj) : Obj :=
  match (c.setattr name v).run o with
  | .ok _ o' => o'
  | .error _ o' => o'

theorem after_of_mem {f : BitField} (member : f ∈ c.fields) (v : ℤ) (o : Obj) :
    c.after f.name v o = if 0 ≤ v ∧ v < 2 ^ f.width then { o with packed := f.put v o.packed } else o := by
  unfold after
  rw [c.setattr_of_mem member]
  split_ifs with fits
  · rw [f.fset_ok o fits]
  · rw [f.fset_error o fits]

/-- An assignment raises, or puts its value into the field. -/
theorem setattr_eq_ok {f : BitField} (member : f ∈ c.fields) (v : ℤ) (o o' : Obj) :
    (c.setattr f.name v).run o = .ok () o' ↔
      (0 ≤ v ∧ v < 2 ^ f.width) ∧ o' = { o with packed := f.put v o.packed } := by
  rw [c.setattr_of_mem member]
  by_cases fits : 0 ≤ v ∧ v < 2 ^ f.width
  · rw [f.fset_ok o fits]
    constructor
    · intro same
      refine ⟨fits, ?_⟩
      cases same
      rfl
    · rintro ⟨-, rfl⟩
      rfl
  · rw [f.fset_error o fits]
    constructor
    · intro same
      cases same
    · rintro ⟨fits', -⟩
      exact absurd fits' fits

/-- Two assignments to different fields do the same in either order. -/
theorem setattr_comm {f g : BitField} (hf : f ∈ c.fields) (hg : g ∈ c.fields) (distinct : f ≠ g) (v w : ℤ)
    (o o' : Obj) :
    (c.setattr f.name v >>= fun _ => c.setattr g.name w).run o = .ok () o' ↔
      (c.setattr g.name w >>= fun _ => c.setattr f.name v).run o = .ok () o' := by
  have comm : g.put w (f.put v o.packed) = f.put v (g.put w o.packed) :=
    (f.put_comm v w o.packed (c.disjoint f hf g hg distinct)).symm
  simp only [run_bind_eq_ok, c.setattr_eq_ok hf, c.setattr_eq_ok hg]
  constructor
  · rintro ⟨-, o₁, ⟨fits, rfl⟩, fits', rfl⟩
    exact ⟨(), _, ⟨fits', rfl⟩, fits, by simp only [comm]⟩
  · rintro ⟨-, o₁, ⟨fits, rfl⟩, fits', rfl⟩
    exact ⟨(), _, ⟨fits', rfl⟩, fits, by simp only [comm]⟩

/-! ## Keyword arguments -/

/-- The order of the assignments of a loop does not matter. -/
theorem setAll_perm {kwargs kwargs' : List (String × ℤ)} (perm : kwargs.Perm kwargs')
    (nodup : (kwargs.map Prod.fst).Nodup) (keywords : ∀ k ∈ kwargs.map Prod.fst, k ∈ c.fields.map BitField.name)
    (o o' : Obj) : (c.setAll kwargs).run o = .ok () o' ↔ (c.setAll kwargs').run o = .ok () o' := by
  induction perm generalizing o with
  | nil => rfl
  | cons kv perm ih =>
    obtain ⟨-, nodup⟩ := List.nodup_cons.1 nodup
    have keywords := fun k hk => keywords k (List.mem_cons_of_mem _ hk)
    simp only [setAll, run_bind_eq_ok, ih nodup keywords]
  | swap kv kv' kwargs =>
    obtain ⟨f, hf, hfn⟩ := List.mem_map.1 (keywords kv.1 (by simp))
    obtain ⟨g, hg, hgn⟩ := List.mem_map.1 (keywords kv'.1 (by simp))
    have distinct : g ≠ f := by
      rintro rfl
      simp [← hfn, ← hgn] at nodup
    -- the first two assignments make one step of both loops
    have swapped : ∀ o₁, (c.setattr kv'.1 kv'.2 >>= fun _ => c.setattr kv.1 kv.2).run o = .ok () o₁ ↔
        (c.setattr kv.1 kv.2 >>= fun _ => c.setattr kv'.1 kv'.2).run o = .ok () o₁ := by
      intro o₁
      rw [← hfn, ← hgn]
      exact c.setattr_comm hg hf distinct kv'.2 kv.2 o o₁
    have regroup : ∀ a b : String × ℤ, (c.setAll (a :: b :: kwargs)).run o = .ok () o' ↔
        ∃ o₁, (c.setattr a.1 a.2 >>= fun _ => c.setattr b.1 b.2).run o = .ok () o₁ ∧
          (c.setAll kwargs).run o₁ = .ok () o' := by
      intro a b
      simp only [setAll, run_bind_eq_ok]
      constructor
      · rintro ⟨⟨⟩, o₁, first, ⟨⟩, o₂, second, rest⟩
        exact ⟨o₂, ⟨(), o₁, first, second⟩, rest⟩
      · rintro ⟨o₂, ⟨⟨⟩, o₁, first, second⟩, rest⟩
        exact ⟨(), o₁, first, (), o₂, second, rest⟩
    rw [regroup kv' kv, regroup kv kv']
    simp only [swapped]
  | trans perm _ ih ih' =>
    rw [ih nodup keywords o]
    apply ih'
    · exact (perm.map Prod.fst).nodup_iff.1 nodup
    · exact fun k hk => keywords k ((perm.map Prod.fst).mem_iff.2 hk)

theorem setAll_error {kwargs : List (String × ℤ)}
    (keywords : ∀ k ∈ kwargs.map Prod.fst, k ∈ c.fields.map BitField.name) (o : Obj) {e : PyError} {o' : Obj}
    (raised : (c.setAll kwargs).run o = .error e o') : ∃ message, e = .valueError message := by
  induction kwargs generalizing o with
  | nil => cases raised
  | cons kv kwargs ih =>
    obtain ⟨f, hf, hfn⟩ := List.mem_map.1 (keywords kv.1 (by simp))
    have keywords := fun k hk => keywords k (List.mem_cons_of_mem _ hk)
    have raised : EStateM.bind (c.setattr kv.1 kv.2) (fun _ => c.setAll kwargs) o = .error e o' := raised
    rw [← hfn, c.setattr_of_mem hf] at raised
    unfold EStateM.bind at raised
    by_cases fits : 0 ≤ kv.2 ∧ kv.2 < 2 ^ f.width
    · rw [show f.fset kv.2 o = _ from f.fset_ok o fits] at raised
      exact ih keywords _ raised
    · rw [show f.fset kv.2 o = _ from f.fset_error o fits] at raised
      cases raised
      exact ⟨_, rfl⟩

theorem init_eq_ok {kwargs : List (String × ℤ)}
    (keywords : ∀ k ∈ kwargs.map Prod.fst, k ∈ c.fields.map BitField.name) (o : Obj) :
    c.init kwargs = .ok o ↔ (c.setAll kwargs).run Obj.new = .ok () o := by
  have fields_only : ¬ ("packed" ∈ kwargs.map Prod.fst ∧ kwargs.length > 1) :=
    fun both => c.packed_reserved (keywords _ both.1)
  rw [init, if_neg fields_only]
  cases (c.setAll kwargs).run Obj.new with
  | ok _ o₁ => simp
  | error e o₁ => simp

theorem init_eq_error {kwargs : List (String × ℤ)}
    (keywords : ∀ k ∈ kwargs.map Prod.fst, k ∈ c.fields.map BitField.name) {e : PyError}
    (raised : c.init kwargs = .error e) : ∃ message, e = .valueError message := by
  have fields_only : ¬ ("packed" ∈ kwargs.map Prod.fst ∧ kwargs.length > 1) :=
    fun both => c.packed_reserved (keywords _ both.1)
  rw [init, if_neg fields_only] at raised
  cases ran : (c.setAll kwargs).run Obj.new with
  | ok _ o =>
    rw [ran] at raised
    cases raised
  | error e' o =>
    rw [ran] at raised
    cases raised
    exact c.setAll_error keywords Obj.new ran

/-! ## The laws -/

/-- The fields of a class are independent registers. -/
structure Independent : Prop where
  /-- A value that does not fit raises, and nothing changes. -/
  rejects : ∀ f ∈ c.fields, ∀ v : ℤ, v < 0 ∨ 2 ^ f.width ≤ v → ∀ o : Obj, ∃ message,
    (c.setattr f.name v).run o = .error (.valueError message) o
  /-- Any other value is read back, and nothing else changes. -/
  accepts : ∀ f ∈ c.fields, ∀ v : ℤ, 0 ≤ v → v < 2 ^ f.width → ∀ o : Obj, ∃ o',
    (c.setattr f.name v).run o = .ok () o' ∧ c.getattr f.name o' = .ok v ∧
    (∀ g ∈ c.fields, g ≠ f → c.getattr g.name o' = c.getattr g.name o) ∧
    (∀ k, ¬ f.Covers k → o'.packed.testBit k = o.packed.testBit k) ∧ o'.attrs = o.attrs
  /-- Assignments to different fields commute, also when one of them raises. -/
  commute : ∀ f ∈ c.fields, ∀ g ∈ c.fields, f ≠ g → ∀ (v w : ℤ) (o : Obj),
    c.after g.name w (c.after f.name v o) = c.after f.name v (c.after g.name w o)
  /-- So do two of them in one program, which the first exception ends. -/
  sequence : ∀ f ∈ c.fields, ∀ g ∈ c.fields, f ≠ g → ∀ (v w : ℤ) (o o' : Obj),
    (c.setattr f.name v >>= fun _ => c.setattr g.name w).run o = .ok () o' ↔
      (c.setattr g.name w >>= fun _ => c.setattr f.name v).run o = .ok () o'
  idempotent : ∀ f ∈ c.fields, ∀ (v : ℤ) (o : Obj), c.after f.name v (c.after f.name v o) = c.after f.name v o
  /-- Keyword fields give one instance in every order, or raise in every order. -/
  keywords : ∀ kwargs kwargs' : List (String × ℤ), (kwargs.map Prod.fst).Nodup →
    (∀ k ∈ kwargs.map Prod.fst, k ∈ c.fields.map BitField.name) → kwargs.Perm kwargs' →
    (∃ o, c.init kwargs = .ok o ∧ c.init kwargs' = .ok o) ∨
    (∃ message message', c.init kwargs = .error (.valueError message) ∧
      c.init kwargs' = .error (.valueError message'))

theorem fields_independent : c.Independent := by
  constructor
  · intro f hf v over_wide o
    rw [c.setattr_of_mem hf, f.fset_error o (by omega)]
    exact ⟨_, rfl⟩
  · intro f hf v nonneg lt o
    refine ⟨_, (c.setattr_eq_ok hf v o _).2 ⟨⟨nonneg, lt⟩, rfl⟩, ?_, ?_, ?_, rfl⟩
    · rw [c.getattr_of_mem hf]
      exact congrArg Except.ok (f.value_put o.packed ⟨nonneg, lt⟩)
    · intro g hg distinct
      rw [c.getattr_of_mem hg, c.getattr_of_mem hg]
      exact congrArg Except.ok (f.value_put_of_disjoint v o.packed (c.disjoint f hf g hg distinct.symm))
    · intro k outside
      exact (f.testBit_put v o.packed k).trans (if_neg outside)
  · intro f hf g hg distinct v w o
    simp only [c.after_of_mem hf, c.after_of_mem hg]
    split_ifs
    · simp only [f.put_comm v w o.packed (c.disjoint f hf g hg distinct)]
    all_goals rfl
  · intro f hf g hg distinct
    exact c.setattr_comm hf hg distinct
  · intro f hf v o
    simp only [c.after_of_mem hf]
    split_ifs
    · simp only [f.put_put]
    · rfl
  · -- keyword order: the fields are distinct, so that setting them commutes
    intro kwargs kwargs' nodup keywords perm
    have keywords' : ∀ k ∈ kwargs'.map Prod.fst, k ∈ c.fields.map BitField.name :=
      fun k hk => keywords k ((perm.map Prod.fst).mem_iff.2 hk)
    have same : ∀ o, c.init kwargs = .ok o ↔ c.init kwargs' = .ok o := by
      intro o
      rw [c.init_eq_ok keywords, c.init_eq_ok keywords']
      exact c.setAll_perm perm nodup keywords Obj.new o
    cases built : c.init kwargs with
    | ok o => exact .inl ⟨o, rfl, (same o).1 built⟩
    | error e =>
      obtain ⟨message, rfl⟩ := c.init_eq_error keywords built
      cases built' : c.init kwargs' with
      | ok o => exact absurd (built.symm.trans ((same o).2 built')) (by simp)
      | error e' =>
        obtain ⟨message', rfl⟩ := c.init_eq_error keywords' built'
        exact .inr ⟨message, message', rfl, rfl⟩

theorem init_packed (v : ℤ) : c.init [("packed", v)] = .ok { Obj.new with packed := v } := by
  have unmapped : c.property "packed" = none := by
    refine List.find?_eq_none.2 fun f hf same => c.packed_reserved ?_
    have same : f.name = "packed" := by simpa using same
    exact same ▸ List.mem_map_of_mem hf
  have assigned : c.setattr "packed" v = modify fun o => { o with packed := v } := by
    rw [setattr, unmapped]
    rfl
  rw [init, if_neg (by simp), setAll, assigned]
  rfl

end BitFieldUnion

/-! ## The control register -/

/-- The bit fields of `CONTROL_COPPER`. -/
def controlFields : List BitField :=
  [⟨"reset", 15, 1⟩, ⟨"loopback", 14, 1⟩, ⟨"speed_sel0", 13, 1⟩, ⟨"autoneg_en", 12, 1⟩, ⟨"power_down", 11, 1⟩,
    ⟨"isolate", 10, 1⟩, ⟨"restart_copper_autoneg", 9, 1⟩, ⟨"copper_duplex_mode", 8, 1⟩, ⟨"col_test", 7, 1⟩,
    ⟨"speed_sel1", 6, 1⟩]

theorem controlFields_nodup : (controlFields.map BitField.name).Nodup := by decide

theorem controlFields_packed : "packed" ∉ controlFields.map BitField.name := by decide

theorem controlFields_disjoint (f : BitField) (hf : f ∈ controlFields) (g : BitField) (hg : g ∈ controlFields)
    (distinct : f ≠ g) (k : ℕ) (covered : f.Covers k) : ¬ g.Covers k := by
  have apart : ∀ f ∈ controlFields, ∀ g ∈ controlFields, f ≠ g →
      f.offset + f.width ≤ g.offset ∨ g.offset + g.width ≤ f.offset := by decide
  intro covered'
  have := apart f hf g hg distinct
  have := covered.1
  have := covered.2
  have := covered'.1
  have := covered'.2
  omega

/-- `CONTROL_COPPER`. -/
def controlCopper : BitFieldUnion where
  fields := controlFields
  nodup := controlFields_nodup
  packed_reserved := controlFields_packed
  disjoint := controlFields_disjoint

/-- `MDIOClient.reset`: what is written to the register after `read` was read from it. -/
def reset (read : ℤ) : Except PyError ℤ :=
  match controlCopper.init [("packed", read)] with
  | .error e => .error e
  | .ok r =>
    match (controlCopper.setattr "reset" 1).run r with
    | .ok _ r => .ok r.packed
    | .error e _ => .error e

/-- The reset bit is set and every other bit is written back as it was. -/
theorem reset_writes (read : ℤ) : ∃ written, reset read = .ok written ∧
    ∀ k, written.testBit k = (decide (k = 15) || read.testBit k) := by
  let f : BitField := ⟨"reset", 15, 1⟩
  have member : f ∈ controlCopper.fields := List.mem_cons_self
  refine ⟨f.put 1 read, ?_, fun k => ?_⟩
  · have fits : 0 ≤ (1 : ℤ) ∧ (1 : ℤ) < 2 ^ f.width := ⟨by decide, by decide⟩
    have assigned := f.fset_ok { Obj.new with packed := read } fits
    rw [reset, controlCopper.init_packed, show "reset" = f.name from rfl, controlCopper.setattr_of_mem member]
    simp only [assigned]
  · rw [f.testBit_put]
    by_cases bit : k = 15
    · subst bit
      have covered : f.Covers 15 := ⟨le_rfl, by decide⟩
      rw [if_pos covered, decide_eq_true (Eq.refl 15), Bool.true_or]
      decide
    · rw [if_neg fun covered => bit (by have := covered.1; have := covered.2; simp only [f] at *; omega)]
      simp [bit]

end LiteEth.Software

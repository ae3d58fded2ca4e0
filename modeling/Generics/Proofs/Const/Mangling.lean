import Generics.Const.Context
import Generics.Proofs.Except
import Mathlib.Data.List.Basic
import Mathlib.Data.Option.Basic

/-!
# Identifiers of instances

The identifier of an instance is the name of the item, followed for each parameter by its name and
its value. Names are made safe by writing underscores, so they may hold any number of these, and an
identifier alone does not show where a name ends. For a given item, though, the names are known. A
value is written without underscores, and what follows it is an underscore or nothing, so that the
values can be read off one after the other.

## Main results

* `ConstValue.mangle_injective` and `ConstValue.underscore_notMem_mangle`: a value can be told from
  the way it is written, and has no underscore in it;
* `Const.Context.monomorphize_eq_ok`: an instance exists when each parameter has a value, and is
  named after these values;
* `Const.Context.monomorphize_eq_iff`: instances of an item have the same identifier exactly when
  all parameters have the same values.
-/

namespace Generics

namespace Text

/-! ## Numbers as digits -/

/-- Hexadecimal digits are told apart by their characters. -/
theorem digitChar_inj {m n : Nat} (hm : m < 16) (hn : n < 16) (h : m.digitChar = n.digitChar) :
    m = n := by
  have hall : ∀ m < 16, ∀ n < 16, m.digitChar = n.digitChar → m = n := by decide
  exact hall m hm n hn h

/-- No hexadecimal digit is an underscore. -/
theorem digitChar_ne_underscore {n : Nat} (h : n < 16) : n.digitChar ≠ '_' := by
  have hall : ∀ n < 16, n.digitChar ≠ '_' := by decide
  exact hall n h

/-- A byte in hexadecimal is its two halves. -/
theorem hexPadded_two {n : Nat} (h : n < 256) :
    hexPadded 2 n = [(n / 16).digitChar, (n % 16).digitChar] := by
  have hhigh : n / 16 < 16 := by omega
  rw [hexPadded]
  by_cases hn : n < 16
  -- a single digit is padded by a zero
  · have hzero : n / 16 = 0 := by omega
    have hmod : n % 16 = n := Nat.mod_eq_of_lt hn
    rw [Nat.toDigits_of_lt_base hn, hzero, hmod]
    rfl
  · rw [Nat.toDigits_of_base_le (by decide) (by omega), Nat.toDigits_of_lt_base hhigh]
    rfl

@[simp] theorem hexBytes_nil : hexBytes [] = [] := rfl

@[simp] theorem hexBytes_cons (b : UInt8) (bs : List UInt8) :
    hexBytes (b :: bs) =
      (b.toNat / 16).digitChar :: (b.toNat % 16).digitChar :: hexBytes bs := by
  rw [hexBytes, List.flatMap_cons, hexPadded_two b.toNat_lt]
  rfl

/-- Bytes can be read back from their hexadecimal digits. -/
theorem hexBytes_injective : Function.Injective hexBytes := by
  intro bs cs h
  induction bs generalizing cs with
  | nil =>
    cases cs with
    | nil => rfl
    | cons c cs => simp at h
  | cons b bs ih =>
    cases cs with
    | nil => simp at h
    | cons c cs =>
      simp only [hexBytes_cons, List.cons.injEq] at h
      obtain ⟨hhigh, hlow, htail⟩ := h
      have hb : b.toNat < 256 := b.toNat_lt
      have hc : c.toNat < 256 := c.toNat_lt
      have hdiv := digitChar_inj (by omega) (by omega) hhigh
      have hmod := digitChar_inj (by omega) (by omega) hlow
      have hbc : b = c := UInt8.toNat_inj.mp (by omega)
      rw [hbc, ih htail]

theorem underscore_notMem_hexBytes (bs : List UInt8) : '_' ∉ hexBytes bs := by
  induction bs with
  | nil => simp
  | cons b bs ih =>
    have hb : b.toNat < 256 := b.toNat_lt
    have hhigh : (b.toNat / 16).digitChar ≠ '_' := digitChar_ne_underscore (by omega)
    have hlow : (b.toNat % 16).digitChar ≠ '_' := digitChar_ne_underscore (by omega)
    simp [ih, hhigh.symm, hlow.symm]

theorem underscore_notMem_decimal (n : Nat) : '_' ∉ decimal n := by
  intro h
  exact absurd (isDigit_of_mem_decimal h) (by decide)

end Text

/-! ## Values as parts of identifiers -/

namespace ConstValue

/-- The kind of the values that are written with the given first character. -/
def kindOfFirst (c : Char) : ConstKind :=
  if c = 's' then .string else if c = 't' ∨ c = 'f' then .bool else .integer

/-- A digit is the first character of mangled integers only. -/
theorem kindOfFirst_of_isDigit {c : Char} (h : c.isDigit = true) : kindOfFirst c = .integer := by
  have hne : ∀ d : Char, d.isDigit = false → c ≠ d := by
    rintro d hd rfl
    rw [h] at hd
    exact absurd hd (by decide)
  simp [kindOfFirst, hne 's' rfl, hne 't' rfl, hne 'f' rfl]

/-- A value shows its kind by its first character. -/
theorem exists_mangle_eq_cons (v : ConstValue) :
    ∃ c cs, v.mangle = c :: cs ∧ kindOfFirst c = v.kind := by
  cases v with
  | integer n =>
    obtain ⟨c, cs, hcs⟩ := List.exists_cons_of_ne_nil (Text.decimal_ne_nil n.natAbs)
    have hdigit : c.isDigit = true := Text.isDigit_of_mem_decimal (hcs ▸ List.mem_cons_self)
    by_cases hn : n < 0
    · exact ⟨'m', Text.decimal n.natAbs, if_pos hn, rfl⟩
    · exact ⟨c, cs, (if_neg hn).trans hcs, kindOfFirst_of_isDigit hdigit⟩
  | bool b =>
    cases b with
    | true => exact ⟨'t', _, rfl, rfl⟩
    | false => exact ⟨'f', _, rfl, rfl⟩
  | string bytes => exact ⟨'s', _, rfl, rfl⟩

/-- Values that are mangled alike are of one kind. -/
theorem kind_eq_of_mangle_eq {v w : ConstValue} (h : v.mangle = w.mangle) : v.kind = w.kind := by
  obtain ⟨c, cs, hv, hkind⟩ := exists_mangle_eq_cons v
  obtain ⟨d, ds, hw, hkind'⟩ := exists_mangle_eq_cons w
  obtain ⟨rfl, -⟩ : c = d ∧ cs = ds := by simpa [hv, hw] using h
  rw [← hkind, hkind']

/-- Integers are told apart by their sign and their digits. -/
theorem mangle_integer_inj {m n : Int} (h : (integer m).mangle = (integer n).mangle) : m = n := by
  -- no digit is the sign of a negative integer
  have hsign : ∀ k : Nat, Text.decimal k ≠ 'm' :: Text.decimal n.natAbs ∧
      Text.decimal k ≠ 'm' :: Text.decimal m.natAbs := by
    intro k
    constructor <;> intro heq <;>
      exact absurd (Text.isDigit_of_mem_decimal (heq ▸ List.mem_cons_self)) (by decide)
  simp only [mangle] at h
  split at h <;> split at h
  · have := Text.decimal_injective (List.cons.inj h).2
    omega
  · exact absurd h.symm (hsign _).2
  · exact absurd h (hsign _).1
  · have := Text.decimal_injective h
    omega

/-- Different values are written differently. -/
theorem mangle_injective : Function.Injective mangle := by
  intro v w h
  have hkind := kind_eq_of_mangle_eq h
  cases v with
  | integer m =>
    cases w with
    | integer n => rw [mangle_integer_inj h]
    | bool c => simp [kind] at hkind
    | string cs => simp [kind] at hkind
  | bool b =>
    cases w with
    | integer n => simp [kind] at hkind
    | bool c => cases b <;> cases c <;> simp [mangle] at h ⊢
    | string cs => simp [kind] at hkind
  | string bs =>
    cases w with
    | integer n => simp [kind] at hkind
    | bool c => simp [kind] at hkind
    | string cs => rw [Text.hexBytes_injective (List.cons.inj h).2]

/-- The mangling of a value has no underscore. -/
theorem underscore_notMem_mangle (v : ConstValue) : '_' ∉ v.mangle := by
  cases v with
  | integer n =>
    simp only [mangle]
    split <;> simp [Text.underscore_notMem_decimal]
  | bool b => cases b <;> decide
  | string bytes => simp [mangle, Text.underscore_notMem_hexBytes]

end ConstValue

namespace Const.Context

open Text

/-! ## Reading the values off an identifier -/

/-- A text without underscores that is followed by one, or by nothing, can be told from what
follows. -/
theorem append_inj_of_underscore {a b x y : List Char} (ha : '_' ∉ a) (hb : '_' ∉ b)
    (hx : ∀ c ∈ x.head?, c = '_') (hy : ∀ c ∈ y.head?, c = '_') (h : a ++ x = b ++ y) :
    a = b ∧ x = y := by
  -- the longer of the two would go on with an underscore
  rcases List.append_eq_append_iff.mp h with ⟨m, rfl, rfl⟩ | ⟨m, rfl, rfl⟩
  · cases m with
    | nil => simp
    | cons c m =>
      obtain rfl : c = '_' := hx c rfl
      simp at hb
  · cases m with
    | nil => simp
    | cons c m =>
      obtain rfl : c = '_' := hy c rfl
      simp at ha

/-- The characters of a mangled name. -/
theorem toList_mangled (name : String) (v : ConstValue) :
    (mangled name v).toList = '_' :: '_' :: (identSafe name).toList ++ '_' :: v.mangle := by
  simp [mangled, toString]

/-- The parts of an identifier for parameters with the given values. -/
def parts (params : List Param) (values : List ConstValue) : List String :=
  List.zipWith (fun p v => mangled p.name v) params values

/-- What follows the value of a parameter is an underscore or nothing. -/
theorem head?_parts (params : List Param) (values : List ConstValue) :
    ∀ c ∈ ((parts params values).flatMap String.toList).head?, c = '_' := by
  cases params with
  | nil => simp [parts]
  | cons p params =>
    cases values with
    | nil => simp [parts]
    | cons v values => simp [parts, toList_mangled]

/-- The values can be read off the parts one after the other. -/
theorem parts_injective {params : List Param} {values values' : List ConstValue}
    (hlen : values.length = params.length) (hlen' : values'.length = params.length)
    (h : (parts params values).flatMap String.toList = (parts params values').flatMap String.toList) :
    values = values' := by
  induction params generalizing values values' with
  | nil => rw [List.length_eq_zero_iff.mp hlen, List.length_eq_zero_iff.mp hlen']
  | cons p params ih =>
    obtain ⟨v, values, rfl⟩ := List.exists_cons_of_length_eq_add_one hlen
    obtain ⟨v', values', rfl⟩ := List.exists_cons_of_length_eq_add_one hlen'
    -- the two parts start with the same name, and then with the value up to an underscore
    have htail : v.mangle ++ (parts params values).flatMap String.toList
        = v'.mangle ++ (parts params values').flatMap String.toList := by
      simpa [parts, toList_mangled] using h
    obtain ⟨hvalue, hrest⟩ := append_inj_of_underscore v.underscore_notMem_mangle
      v'.underscore_notMem_mangle (head?_parts params values) (head?_parts params values') htail
    rw [ConstValue.mangle_injective hvalue,
      ih (Nat.succ.inj hlen) (Nat.succ.inj hlen') hrest]

/-! ## Values of the parameters -/

/-- The value of a parameter in an instantiation: the one that the arguments give, else the one that
is bound, else the default. -/
def valueIn (c : Context) (args : List Argument) (p : Param) : Option ConstValue :=
  (args.find? fun a => a.name = p.name).bind Argument.value <|> c.value? p.name <|> p.default

/-- Arguments that pass give each name the value of the one argument with this name. -/
theorem lookup_of_collect {c : Context} {args : List Argument}
    {given out : List (String × ConstValue)} (h : c.collect given args = .ok out) (name : String) :
    out.lookup name =
      (given.lookup name <|> (args.find? fun a => a.name = name).bind Argument.value) := by
  fun_induction collect c given args with
  | case1 given =>
    obtain rfl : given = out := Except.ok.inj h
    simp
  | case2 given name' args => cases h
  | case3 given name' value args hgiven => cases h
  | case4 given name' value args hgiven ih =>
    obtain ⟨_, -, h⟩ := exists_ok_of_bind_eq_ok h
    rw [ih h]
    by_cases hname : name' = name
    · -- no earlier argument has this name, or the new one would have been refused
      subst hname
      have hnone : given.lookup name' = none := Option.not_isSome_iff_eq_none.mp hgiven
      simp [hnone]
    · have hne : (name == name') = false := by simpa using Ne.symm hname
      simp [List.lookup_cons, hne, hname]

/-- The value of a parameter among arguments that pass. -/
theorem effective_of_collect {c : Context} {args : List Argument}
    {given : List (String × ConstValue)} (h : c.collect [] args = .ok given) :
    c.effective given = c.valueIn args := by
  funext p
  rw [effective, valueIn, lookup_of_collect h]
  rfl

/-- Parameters that are all written have all a value. -/
theorem exists_of_mapM_eq_ok {write : Param → Except Error String}
    {value : Param → Option ConstValue}
    (hwrite : ∀ p text, write p = .ok text → ∃ v, value p = some v ∧ text = mangled p.name v)
    {params : List Param} {texts : List String} (h : params.mapM write = .ok texts) :
    ∃ values, params.map value = values.map some ∧ texts = parts params values := by
  induction params generalizing texts with
  | nil =>
    obtain rfl : [] = texts := Except.ok.inj h
    exact ⟨[], rfl, rfl⟩
  | cons p params ih =>
    rw [List.mapM_cons] at h
    obtain ⟨text, hp, h⟩ := exists_ok_of_bind_eq_ok h
    obtain ⟨rest, hps, h⟩ := exists_ok_of_bind_eq_ok h
    obtain rfl : text :: rest = texts := Except.ok.inj h
    obtain ⟨v, hvalue, rfl⟩ := hwrite p text hp
    obtain ⟨values, hvalues, rfl⟩ := ih hps
    exact ⟨v :: values, by simp [hvalue, hvalues], rfl⟩

/-- An instance exists when each parameter has a value, and is named after these values. -/
theorem monomorphize_eq_ok {c : Context} {args : List Argument} {id : String}
    (h : c.monomorphize args = .ok id) :
    ∃ values : List ConstValue, c.params.map (c.valueIn args) = values.map some ∧
      id.toList = (identSafe c.owner).toList ++ (parts c.params values).flatMap String.toList := by
  unfold monomorphize at h
  obtain ⟨given, hgiven, h⟩ := exists_ok_of_bind_eq_ok h
  obtain ⟨texts, htexts, hid⟩ := exists_ok_of_bind_eq_ok h
  obtain rfl : identSafe c.owner ++ String.join texts = id := Except.ok.inj hid
  have hvalues : ∃ values, c.params.map (c.valueIn args) = values.map some ∧
      texts = parts c.params values := by
    refine exists_of_mapM_eq_ok (fun p text htext => ?_) htexts
    rw [← effective_of_collect hgiven]
    cases hvalue : c.effective given p with
    | none =>
      rw [hvalue] at htext
      cases htext
    | some v =>
      rw [hvalue] at htext
      exact ⟨v, rfl, (Except.ok.inj htext).symm⟩
  obtain ⟨values, hvalues, rfl⟩ := hvalues
  exact ⟨values, hvalues, by simp⟩

/-- Two instances of an item have the same identifier exactly when every parameter has the same value
in both, whether given, bound or taken from its default. In an instance every parameter has a value. -/
theorem monomorphize_eq_iff {c c' : Context} (howner : c.owner = c'.owner)
    (hparams : c.params = c'.params) {args args' : List Argument} {id id' : String}
    (h : c.monomorphize args = .ok id) (h' : c'.monomorphize args' = .ok id') :
    (id = id' ↔ ∀ p ∈ c.params, c.valueIn args p = c'.valueIn args' p) ∧
      ∀ p ∈ c.params, (c.valueIn args p).isSome = true := by
  obtain ⟨values, hvalues, hid⟩ := monomorphize_eq_ok h
  obtain ⟨values', hvalues', hid'⟩ := monomorphize_eq_ok h'
  rw [← hparams] at hvalues' hid'
  have hlen : values.length = c.params.length := by simpa using congrArg List.length hvalues.symm
  have hlen' : values'.length = c.params.length := by simpa using congrArg List.length hvalues'.symm
  have hsome : Function.Injective (List.map (some : ConstValue → Option ConstValue)) :=
    List.map_injective_iff.mpr (Option.some_injective _)
  refine ⟨?_, fun p hp => ?_⟩
  · -- both sides come down to the lists of values: one through the parts, one parameter by parameter
    rw [← List.map_inj_left, hvalues, hvalues', hsome.eq_iff, ← String.toList_inj, hid, hid', ← howner,
      List.append_cancel_left_eq]
    exact ⟨parts_injective hlen hlen', fun heq => by rw [heq]⟩
  · have hmem : c.valueIn args p ∈ values.map some := hvalues ▸ List.mem_map_of_mem hp
    obtain ⟨v, -, hv⟩ := List.mem_map.mp hmem
    rw [← hv]
    rfl

/-- A negative value that is given, and the same one bound beforehand, name the same instance; the
other parameter takes its default. -/
theorem monomorphize_eq_iff_of_bound :
    let params : List Param := [⟨"N_", .prim "i64", none⟩, ⟨"L", .prim "str", some (.string [0x5F])⟩]
    let c : Context := ⟨"a::B", params, []⟩
    let c' : Context := ⟨"a::B", params, [("N_", .integer (-7))]⟩
    let args : List Argument := [⟨"N_", some (.integer (-7))⟩]
    c.monomorphize args = .ok "a__B__N__m7__L_s5f" ∧ c'.monomorphize [] = .ok "a__B__N__m7__L_s5f" ∧
      ∀ p ∈ params, c.valueIn args p = c'.valueIn [] p := by
  intro params c c' args
  have h : c.monomorphize args = .ok "a__B__N__m7__L_s5f" := by
    unfold c args params
    decide +kernel
  have h' : c'.monomorphize [] = .ok "a__B__N__m7__L_s5f" := by
    unfold c' params
    decide +kernel
  have howner : c.owner = c'.owner := rfl
  have hparams : c.params = c'.params := rfl
  exact ⟨h, h', (monomorphize_eq_iff howner hparams h h').1.mp rfl⟩

end Const.Context

end Generics

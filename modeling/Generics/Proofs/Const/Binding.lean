import Generics.Proofs.Const.Ranges
import Generics.Proofs.Const.Writing
import Generics.Proofs.Lookup

/-!
# Binding const parameters

What happens to the const parameters of an item over any number of requests: to bind a value, to
bind the value of an expression, and to name an instance. A value is bound if there is a parameter
of this name whose type has it. All values that are bound at any time have therefore the types of
their parameters. A request that fails changes nothing, and neither does one that names an instance.

## Main results

* `Const.Context.serve_cases`: a value is bound if a parameter admits it, and otherwise nothing
  changes;
* `Const.Context.run_induction`: what each successful binding keeps holds after every run;
* `Const.Context.run_append_cons`: a request that names an instance can be left out of a run;
* `Const.Context.run_admits`: after every run, values have the types of their parameters.
-/

namespace Generics.Const

/-- A request to the const parameters of an item. An integer that is to be bound has 64 bits. An
expression is evaluated by an evaluator that was used for other texts before. -/
inductive Request where
  | bind (name : String) (value : ConstValue) (hfits : value.Fits)
  | bindExpr (earlier : List String) (name expr : String)
  | monomorphize (args : List Argument)
  | specialize (args : List Argument)

/-- The request is to bind a value. -/
def Request.isBinding : Request → Bool
  | bind .. | bindExpr .. => true
  | monomorphize _ | specialize _ => false

/-- The value that a request is to bind, and the name for it. An expression has to have a value. -/
inductive Request.Offers : Request → String → ConstValue → Prop
  | bind {name : String} {value : ConstValue} (hfits : value.Fits) :
      Offers (.bind name value hfits) name value
  | bindExpr {earlier : List String} {name expr : String} {value : ConstValue}
      (h : ((Evaluator.after earlier).evaluate expr).2 = .ok value) :
      Offers (.bindExpr earlier name expr) name value

/-- A request is to bind one value under one name. -/
theorem Request.Offers.unique {request : Request} {name name' : String} {v v' : ConstValue}
    (h : request.Offers name v) (h' : request.Offers name' v') : name = name' ∧ v = v' := by
  cases h with
  | bind hfits =>
    cases h'
    exact ⟨rfl, rfl⟩
  | bindExpr h =>
    cases h' with
    | bindExpr h' => exact ⟨rfl, Except.ok.inj (h.symm.trans h')⟩

/-- There is a parameter of the name whose type has the value. -/
def Admits (params : List Param) (name : String) (v : ConstValue) : Prop :=
  ∃ p ∈ params, p.name = name ∧ v.Inhabits p.type

namespace Context

/-- The context after a request, and the answer: an identifier, or nothing for a value that is
bound. -/
def serve (c : Context) : Request → Context × Except Error (Option String)
  | .bind name value _ => ((c.bind name value).1, (c.bind name value).2.map fun _ => none)
  | .bindExpr earlier name expr =>
    ((c.bindExpr (.after earlier) name expr).2.1,
      (c.bindExpr (.after earlier) name expr).2.2.map fun _ => none)
  | .monomorphize args => (c, (c.monomorphize args).map some)
  | .specialize args => (c, (c.specialize args).map some)

/-- The context after all requests. -/
def run (c : Context) (requests : List Request) : Context :=
  requests.foldl (fun c request => (c.serve request).1) c

variable {c : Context}

/-! ## One request -/

theorem value?_setValue (c : Context) (name : String) (value : ConstValue) (other : String) :
    (c.setValue name value).value? other = if other = name then some value else c.value? other := by
  unfold setValue value?
  by_cases hother : other = name
  · simp [hother]
  · have hne : (other == name) = false := by simpa using hother
    rw [if_neg hother, List.lookup_cons, hne]
    exact lookup_filter_of_pos (p := fun n => n ≠ name) (by simpa using hother) c.values

/-- Among parameters of different names, the one with a given name is found. -/
theorem param?_eq_some_iff (hdistinct : (c.params.map Param.name).Nodup) {name : String}
    {p : Param} : c.param? name = some p ↔ p ∈ c.params ∧ p.name = name :=
  find?_eq_some_iff_of_nodup hdistinct

/-- The check accepts a value exactly if a parameter admits it. -/
theorem check_eq_ok_iff (hdistinct : (c.params.map Param.name).Nodup) {name : String}
    {v : ConstValue} (hv : v.Fits) : c.check name v = .ok () ↔ Admits c.params name v := by
  unfold check
  constructor
  · intro h
    split at h
    · cases h
    · rename_i p hp
      obtain ⟨hmem, hname⟩ := (param?_eq_some_iff hdistinct).mp hp
      split at h
      · rename_i hmisfit
        exact ⟨p, hmem, hname, (ConstValue.misfit?_eq_none_iff hv).mp hmisfit⟩
      · cases h
  · rintro ⟨p, hmem, hname, hinhabits⟩
    rw [(param?_eq_some_iff hdistinct).mpr ⟨hmem, hname⟩]
    simp only [(ConstValue.misfit?_eq_none_iff hv).mpr hinhabits]

/-- A value is bound if a parameter admits it, and otherwise nothing changes. -/
theorem bind_cases (hdistinct : (c.params.map Param.name).Nodup) (name : String) {v : ConstValue}
    (hv : v.Fits) :
    Admits c.params name v ∧ c.bind name v = (c.setValue name v, .ok ()) ∨
      ¬ Admits c.params name v ∧ ∃ e, c.bind name v = (c, .error e) := by
  rw [← check_eq_ok_iff hdistinct hv]
  unfold bind
  cases hcheck : c.check name v with
  | ok u => exact .inl ⟨rfl, rfl⟩
  | error e => exact .inr ⟨by rintro ⟨⟩, e, rfl⟩

/-- An expression is bound like its value, and one without a value is not bound. -/
theorem bindExpr_cases (c : Context) (earlier : List String) (name expr : String) :
    (∃ v, ((Evaluator.after earlier).evaluate expr).2 = .ok v ∧ v.Fits ∧
        (c.bindExpr (.after earlier) name expr).2 = c.bind name v) ∨
      (∀ v, ((Evaluator.after earlier).evaluate expr).2 ≠ .ok v) ∧
        ∃ e, (c.bindExpr (.after earlier) name expr).2 = (c, .error e) := by
  unfold bindExpr
  rcases hanswer : (Evaluator.after earlier).evaluate expr with ⟨evaluator, e | v⟩
  · exact .inr ⟨by rintro v ⟨⟩, e, rfl⟩
  · have hok : ((Evaluator.after earlier).evaluate expr).2 = .ok v := by rw [hanswer]
    exact .inl ⟨v, rfl, fits_of_eval (Evaluator.evaluate_after_eq_ok_iff.mp hok), rfl⟩

/-- A request to bind a value succeeds if the value is admitted, and else changes nothing. -/
theorem serve_cases (hdistinct : (c.params.map Param.name).Nodup) {request : Request}
    (hbinding : request.isBinding = true) :
    (∃ name v, request.Offers name v ∧ Admits c.params name v ∧
        c.serve request = (c.setValue name v, .ok none)) ∨
      (∀ name v, request.Offers name v → ¬ Admits c.params name v) ∧
        ∃ e, c.serve request = (c, .error e) := by
  cases request with
  | bind name value hfits =>
    rcases bind_cases hdistinct name hfits with ⟨hadmits, hbind⟩ | ⟨hadmits, e, hbind⟩
    · exact .inl ⟨name, value, .bind hfits, hadmits, by rw [serve, hbind]; rfl⟩
    · refine .inr ⟨?_, e, by rw [serve, hbind]; rfl⟩
      rintro _ _ ⟨⟩
      exact hadmits
  | bindExpr earlier name expr =>
    -- an expression with a value is the case above; one without offers nothing
    rcases c.bindExpr_cases earlier name expr with ⟨v, hv, hfits, hserve⟩ | ⟨hv, e, hserve⟩
    · rcases bind_cases hdistinct name hfits with ⟨hadmits, hbind⟩ | ⟨hadmits, e, hbind⟩
      · exact .inl ⟨name, v, .bindExpr hv, hadmits, by rw [serve, hserve, hbind]; rfl⟩
      · refine .inr ⟨?_, e, by rw [serve, hserve, hbind]; rfl⟩
        intro name' w hw
        obtain ⟨rfl, rfl⟩ := hw.unique (.bindExpr hv)
        exact hadmits
    · refine .inr ⟨?_, e, by rw [serve, hserve]; rfl⟩
      rintro _ w (_ | hw)
      exact absurd hw (hv w)
  | monomorphize args => cases hbinding
  | specialize args => cases hbinding

/-- A request that names an instance leaves the context as it is. -/
theorem serve_of_not_isBinding {request : Request} (h : request.isBinding = false) :
    (c.serve request).1 = c := by
  cases request with
  | bind name value hfits => cases h
  | bindExpr earlier name expr => cases h
  | monomorphize args => rfl
  | specialize args => rfl

/-! ## Runs of requests -/

/-- What holds before a run, and is kept when an admitted value is bound, holds after the run. -/
theorem run_induction {params : List Param} (hdistinct : (params.map Param.name).Nodup)
    {P : Context → Prop}
    (hset : ∀ c name v, P c → Admits params name v → P (c.setValue name v))
    (requests : List Request) {c : Context} (hparams : c.params = params) (hc : P c) :
    P (c.run requests) ∧ (c.run requests).params = params := by
  induction requests generalizing c with
  | nil => exact ⟨hc, hparams⟩
  | cons request requests ih =>
    subst hparams
    -- only a binding that succeeds makes a new context
    cases hbinding : request.isBinding with
    | false =>
      have hserve := serve_of_not_isBinding (c := c) hbinding
      exact ih (c := (c.serve request).1) (by rw [hserve]) (by rwa [hserve])
    | true =>
      rcases serve_cases hdistinct hbinding with ⟨name, v, -, hadmits, hserve⟩ | ⟨-, e, hserve⟩
      · refine ih (c := (c.serve request).1) (by rw [hserve]; rfl) ?_
        rw [hserve]
        exact hset c name v hc hadmits
      · exact ih (c := (c.serve request).1) (by rw [hserve]) (by rwa [hserve])

/-- A request that names an instance can be left out of a run. -/
theorem run_append_cons {request : Request} (h : request.isBinding = false) (c : Context)
    (before rest : List Request) : c.run (before ++ request :: rest) = c.run (before ++ rest) := by
  rw [run, run, List.foldl_append, List.foldl_append, List.foldl_cons, serve_of_not_isBinding h]

/-- Every value that is bound is one that a parameter admits. -/
def Sound (params : List Param) (c : Context) : Prop :=
  ∀ name v, c.value? name = some v → Admits params name v

theorem Sound.setValue {params : List Param} (h : Sound params c) {name : String} {v : ConstValue}
    (hadmits : Admits params name v) : Sound params (c.setValue name v) := by
  intro other w hw
  rw [value?_setValue] at hw
  split at hw
  · rename_i hother
    obtain rfl := Option.some.inj hw
    rwa [hother]
  · exact h other w hw

/-- Let the parameters of a new item have different names. After every run of requests, each value
is that of a parameter and one of its type. A value is bound exactly if it is one of the type of the
parameter with its name; no other value changes then, and none does otherwise. -/
theorem run_admits {owner : String} {params : List Param}
    (hdistinct : (params.map Param.name).Nodup) (requests : List Request) :
    let c := run { owner, params } requests
    (∀ name v, c.value? name = some v → Admits params name v) ∧
      ∀ request : Request, request.isBinding = true →
        ((c.serve request).2.isOk = true ↔
          ∃ name v, request.Offers name v ∧ Admits params name v) ∧
        (∀ name v, request.Offers name v → (c.serve request).2.isOk = true → ∀ other,
          (c.serve request).1.value? other = if other = name then some v else c.value? other) ∧
        ((c.serve request).2.isOk = false → (c.serve request).1 = c) := by
  intro c
  have hstart : Sound params { owner, params } := by
    rintro name v ⟨⟩
  obtain ⟨hsound, hparams⟩ := run_induction (P := Sound params) hdistinct
    (fun _ _ _ hc hadmits => hc.setValue hadmits) requests rfl hstart
  refine ⟨hsound, fun request hbinding => ?_⟩
  -- a request binds what it offers, or fails and changes nothing
  have hcases := serve_cases (hparams.symm ▸ hdistinct) hbinding
  rw [hparams] at hcases
  rcases hcases with ⟨name, v, hoffers, hadmits, hserve⟩ | ⟨hadmits, e, hserve⟩
  · rw [hserve]
    refine ⟨iff_of_true rfl ⟨name, v, hoffers, hadmits⟩, ?_, by rintro ⟨⟩⟩
    intro name' v' hoffers' _ other
    obtain ⟨rfl, rfl⟩ := hoffers.unique hoffers'
    exact value?_setValue c name v other
  · rw [hserve]
    refine ⟨iff_of_false (by rintro ⟨⟩) ?_, by rintro _ _ _ ⟨⟩, fun _ => rfl⟩
    rintro ⟨name, v, hoffers, h⟩
    exact hadmits name v hoffers h

/-- A byte is bound to its greatest value, and a signed byte can not be bound to one more than its
greatest, whatever was asked for before. -/
theorem run_admits_of_bytes :
    let params : List Param := [⟨"B", .prim "u8", none⟩, ⟨"S", .prim "i8", none⟩]
    let tooLarge : Request := .bind "S" (.integer 128) (ConstValue.fits_integer_iff.mpr (by decide))
    let c := run ⟨"Bits", params, []⟩
      [.bind "B" (.integer 255) (ConstValue.fits_integer_iff.mpr (by decide)), tooLarge,
        .monomorphize [], .bind "Z" (.bool true) (ConstValue.fits_bool true)]
    c.value? "B" = some (.integer 255) ∧ Admits params "B" (.integer 255) ∧
      ¬ Admits params "S" (.integer 128) ∧ (c.serve tooLarge).1 = c := by
  intro params tooLarge c
  have hdistinct : (params.map Param.name).Nodup := by decide
  obtain ⟨hvalues, hserve⟩ := @run_admits "Bits" params hdistinct
    [.bind "B" (.integer 255) (ConstValue.fits_integer_iff.mpr (by decide)), tooLarge,
      .monomorphize [], .bind "Z" (.bool true) (ConstValue.fits_bool true)]
  obtain ⟨hiff, -, hfailed⟩ := hserve tooLarge rfl
  have hvalue : c.value? "B" = some (.integer 255) := by
    unfold c tooLarge params
    decide +kernel
  have hrefused : (c.serve tooLarge).2.isOk = false := by
    unfold c tooLarge params
    decide +kernel
  refine ⟨hvalue, hvalues "B" _ hvalue, fun hadmits => ?_, hfailed hrefused⟩
  have hok := hiff.mpr ⟨"S", .integer 128, .bind _, hadmits⟩
  rw [show _ = false from hrefused] at hok
  cases hok

end Context

end Generics.Const

import Generics.Subst.Basic

/-!
# Matching

A pattern is made identical to a target by binding variables of the pattern only. The variables of the
target are rigid: they stand for themselves. A failed match may leave bindings behind.
-/

namespace Generics.Subst

/-- Matches a variable. Only a variable among `vars` may be bound, and only to a type that does not
mention it. -/
def matchVar (vars : List VarId) (s : Subst) (v : VarId) (target : Ty) : Subst × Bool :=
  if target = .var v then (s, true)
  else if vars.contains v && !target.occurs v then (s.insert v target, true)
  else (s, false)

/-- Matches a pattern against the unit type. -/
def matchUnit (vars : List VarId) (s : Subst) (pattern : Ty) : Subst × Bool :=
  match s.apply pattern with
  | .var v => matchVar vars s v .unit
  | .tuple [] => (s, true)
  | _ => (s, false)

mutual

/-- Matches a pattern, resolved against the bindings made so far, with a target. -/
def matchTy (vars : List VarId) (s : Subst) (pattern target : Ty) : Subst × Bool :=
  match s.apply pattern, target with
  | .var v, t => matchVar vars s v t
  | .prim p, .prim q => (s, p = q)
  | .named n _ ps, .named m _ ts =>
    if n = m ∧ ps.length = ts.length then matchEach vars s ps ts else (s, false)
  | .tuple ps, .tuple ts => if ps.length = ts.length then matchEach vars s ps ts else (s, false)
  | .array p n, .array t m => if n = m then matchTy vars s p t else (s, false)
  | .ref _ a p, .ref _ b t => if a = b then matchTy vars s p t else (s, false)
  | .ptr a p, .ptr b t => if a = b then matchTy vars s p t else (s, false)
  | .fn ps pr, .fn ts none =>
    if ps.length = ts.length then
      let (s, matched) := matchEach vars s ps ts
      if matched then matchUnit vars s (Ty.retOrUnit pr) else (s, false)
    else (s, false)
  | .fn ps pr, .fn ts (some tr) =>
    if ps.length = ts.length then
      let (s, matched) := matchEach vars s ps ts
      if matched then matchTy vars s (Ty.retOrUnit pr) tr else (s, false)
    else (s, false)
  | _, _ => (s, false)
termination_by structural target

/-- Matches patterns with targets in order, up to the first that does not match. -/
def matchEach (vars : List VarId) (s : Subst) (patterns targets : List Ty) : Subst × Bool :=
  match patterns, targets with
  | p :: ps, t :: ts =>
    let (s, matched) := matchTy vars s p t
    if matched then matchEach vars s ps ts else (s, false)
  | _, _ => (s, true)
termination_by structural targets

end

/-- Extends the bindings so that the pattern becomes the target, binding variables of the pattern. -/
def matchPattern (s : Subst) (pattern target : Ty) : Subst × Bool :=
  matchTy pattern.vars s pattern target

end Generics.Subst

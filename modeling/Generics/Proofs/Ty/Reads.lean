import Generics.Proofs.Ty.Reading

/-!
# What is read from tokens

The reader of types calls itself for the parts of a type: for a return type, for the types of a list up to
its closing parenthesis, and for the arguments of a name. `Ty.Reads` says for each of these what is read
from the front of some tokens and what is left of them, one rule for each way to go on. It holds of what
the reader does and of nothing else. Since every rule asks only for what its parts were read from, a fact
about all that is read is proved by induction on it.

## Main results

* `Ty.Reads`: what is read, and the tokens that are left;
* `Ty.reads_iff`: it is what the reader does;
* `Ty.read?_eq_some_iff`: the same for types alone.
-/

namespace Generics.Ty

open Text

/-- What can be asked of the reader. -/
inductive Item where
  | type (t : Ty)
  /-- The return type of a function, which may have none. -/
  | ret (t : Ty)
  /-- The types up to a closing parenthesis. A comma may stand before it. -/
  | list (elems : List Ty) (comma : Bool)
  /-- The arguments of a name, up to the closing angle bracket. -/
  | args (regions : List Region) (types : List Ty)

/-- The item is read from the front of the first tokens, and the second ones are left. -/
inductive Reads : List Token → Item → List Token → Prop
  | var {digits : String} {id : UInt64} {ts : List Token}
      (hid : readUInt64? digits.toList = some id) : Reads (.var digits :: ts) (.type (.var id)) ts
  | fn {ts after rest : List Token} {params : List Ty} {comma : Bool} {ret : Ty}
      (hparams : Reads ts (.list params comma) after) (hret : Reads after (.ret ret) rest) :
      Reads (.ident "fn" :: .sym '(' :: ts) (.type (.fn params (some ret))) rest
  | name {name : String} {ts : List Token} (hfn : name ≠ "fn") (hts : ts.head? ≠ some (.sym '<')) :
      Reads (.ident name :: ts) (.type (ofName name)) ts
  | applied {name : String} {ts rest : List Token} {regions : List Region} {types : List Ty}
      (hfn : name ≠ "fn") (hargs : Reads ts (.args regions types) rest) :
      Reads (.ident name :: .sym '<' :: ts) (.type (.named name regions types)) rest
  | paren {ts rest : List Token} {elems : List Ty} {comma : Bool}
      (helems : Reads ts (.list elems comma) rest) :
      Reads (.sym '(' :: ts) (.type (grouped (elems, comma))) rest
  | array {ts rest : List Token} {elem : Ty} {digits : String} {size : UInt64}
      (helem : Reads ts (.type elem) (.sym ';' :: .number digits :: .sym ']' :: rest))
      (hsize : readUInt64? digits.toList = some size) :
      Reads (.sym '[' :: ts) (.type (.array elem size)) rest
  | ref {ts rest : List Token} {inner : Ty}
      (hinner : Reads (afterWord "mut" (afterRegion ts)) (.type inner) rest) :
      Reads (.sym '&' :: ts) (.type (.ref (regionAt ts) (startsWith "mut" (afterRegion ts)) inner)) rest
  | ptr {word : String} {ts rest : List Token} {inner : Ty} (hword : word = "mut" ∨ word = "const")
      (hinner : Reads ts (.type inner) rest) :
      Reads (.sym '*' :: .ident word :: ts) (.type (.ptr (word = "mut") inner)) rest
  | never {ts : List Token} : Reads (.sym '!' :: ts) (.type never) ts
  | arrow {ts rest : List Token} {ret : Ty} (hret : Reads ts (.type ret) rest) :
      Reads (.arrow :: ts) (.ret ret) rest
  | noArrow {ts : List Token} (hts : ts.head? ≠ some .arrow) : Reads ts (.ret unit) ts
  | noElems {ts : List Token} : Reads (.sym ')' :: ts) (.list [] false) ts
  | lastElem {ts rest : List Token} {elem : Ty} (helem : Reads ts (.type elem) (.sym ')' :: rest)) :
      Reads ts (.list [elem] false) rest
  | elem {ts ts' rest : List Token} {elem : Ty} {elems : List Ty} {comma : Bool}
      (helem : Reads ts (.type elem) (.sym ',' :: ts')) (helems : Reads ts' (.list elems comma) rest) :
      Reads ts (.list (elem :: elems) (elems.isEmpty || comma)) rest
  | noArgs {ts : List Token} : Reads (.sym '>' :: ts) (.args [] []) ts
  | lastRegion {name : String} {ts : List Token} :
      Reads (.region name :: .sym '>' :: ts) (.args [regionOf name] []) ts
  | region {name : String} {ts rest : List Token} {regions : List Region} {types : List Ty}
      (hargs : Reads ts (.args regions types) rest) :
      Reads (.region name :: .sym ',' :: ts) (.args (regionOf name :: regions) types) rest
  | lastArg {ts rest : List Token} {arg : Ty} (harg : Reads ts (.type arg) (.sym '>' :: rest)) :
      Reads ts (.args [] [arg]) rest
  | arg {ts ts' rest : List Token} {arg : Ty} {regions : List Region} {types : List Ty}
      (harg : Reads ts (.type arg) (.sym ',' :: ts')) (hargs : Reads ts' (.args regions types) rest) :
      Reads ts (.args regions (arg :: types)) rest

/-- The reader for the item reads it, and the second tokens are left. -/
def Item.IsRead (ts rest : List Token) : Item → Prop
  | .type t => read? ts = some (t, rest)
  | .ret t => readRet? ts = some (t, rest)
  | .list elems comma => readList? ')' ts = some ((elems, comma), rest)
  | .args regions types => readArgs? ts = some ((regions, types), rest)

/-! ## What follows a part -/

/-- What is expected and found stands at the front. -/
theorem eq_cons_of_expect? {c : Char} {ts rest : List Token} (h : expect? c ts = some rest) :
    ts = .sym c :: rest := by
  unfold expect? at h
  split at h
  · obtain ⟨rfl, hrest⟩ := Option.ite_none_right_eq_some.mp h
    rw [Option.some.inj hrest]
  · cases h

/-- The word at the front is a token of its own. -/
theorem exists_of_startsWith {word : String} {ts : List Token} (h : startsWith word ts = true) :
    ∃ ts', ts = .ident word :: ts' := by
  unfold startsWith at h
  split at h
  · rename_i name ts'
    exact ⟨ts', by rw [of_decide_eq_true h]⟩
  · cases h

/-- One of the two words at the front is a token of its own. -/
theorem exists_of_startsWith_or {word₁ word₂ : String} {ts : List Token}
    (h : (startsWith word₁ ts || startsWith word₂ ts) = true) :
    ∃ word ts', (word = word₁ ∨ word = word₂) ∧ ts = .ident word :: ts' := by
  rcases Bool.or_eq_true_iff.mp h with h | h
  · obtain ⟨ts', rfl⟩ := exists_of_startsWith h
    exact ⟨word₁, ts', .inl rfl, rfl⟩
  · obtain ⟨ts', rfl⟩ := exists_of_startsWith h
    exact ⟨word₂, ts', .inr rfl, rfl⟩

/-- The size of an array is a number. -/
theorem readSize?_cases {ts rest : List Token} {size : UInt64}
    (h : readSize? ts = some (size, rest)) :
    ∃ digits, ts = .number digits :: rest ∧ readUInt64? digits.toList = some size := by
  unfold readSize? at h
  split at h
  · rename_i digits ts'
    obtain ⟨n, hn, heq⟩ := Option.map_eq_some_iff.mp h
    obtain ⟨rfl, rfl⟩ := Prod.mk.inj heq
    exact ⟨digits, rfl, hn⟩
  · cases h

/-- After a type in a list there is a comma and the rest of the list, or the list ends. -/
theorem readMore?_cases {close : Char} {ts rest : List Token} {more : List Ty × Bool}
    (h : readMore? close ts = some (more, rest)) :
    (∃ ts' elems, ts = .sym ',' :: ts' ∧ readList? close ts' = some (elems, rest) ∧
        more = (elems.1, elems.1.isEmpty || elems.2)) ∨
      (ts = .sym close :: rest ∧ more = ([], false)) := by
  unfold readMore? at h
  split at h
  · obtain ⟨⟨elems, rest'⟩, hlist, heq⟩ := Option.map_eq_some_iff.mp h
    obtain ⟨rfl, rfl⟩ := Prod.mk.inj heq
    exact .inl ⟨_, elems, rfl, hlist, rfl⟩
  · obtain ⟨rest', hrest, heq⟩ := Option.map_eq_some_iff.mp h
    obtain ⟨rfl, rfl⟩ := Prod.mk.inj heq
    exact .inr ⟨eq_cons_of_expect? hrest, rfl⟩

/-- After an argument there is a comma and the rest of the arguments, or the list ends. -/
theorem readMoreArgs?_cases {ts rest : List Token} {more : List Region × List Ty}
    (h : readMoreArgs? ts = some (more, rest)) :
    (∃ ts', ts = .sym ',' :: ts' ∧ readArgs? ts' = some (more, rest)) ∨
      (ts = .sym '>' :: rest ∧ more = ([], [])) := by
  unfold readMoreArgs? at h
  split at h
  · exact .inl ⟨_, rfl, h⟩
  · obtain ⟨rest', hrest, heq⟩ := Option.map_eq_some_iff.mp h
    obtain ⟨rfl, rfl⟩ := Prod.mk.inj heq
    exact .inr ⟨eq_cons_of_expect? hrest, rfl⟩

/-- What closes a list differs from a comma. -/
theorem readMore?_close {close : Char} (hcomma : close ≠ ',') (rest : List Token) :
    readMore? close (.sym close :: rest) = some (([], false), rest) := by
  rw [readMore?.eq_2 _ _ (by simp [hcomma]), expect?_self]
  rfl

theorem readMoreArgs?_comma (ts : List Token) : readMoreArgs? (.sym ',' :: ts) = readArgs? ts := rfl

/-- A type starts with a token that can start one. -/
theorem head?_ne_of_read? {ts : List Token} {p : Ty × List Token} (h : read? ts = some p)
    {tok : Token} (htok : tok.startsTy = false) : ts.head? ≠ some tok := by
  intro hhead
  obtain ⟨rest, rfl⟩ := List.head?_eq_some_iff.mp hhead
  rw [read?_of_startsTy htok] at h
  cases h

/-- Reading uses up tokens. -/
theorem length_lt_of_readOf {α : Type} {ts : List Token} {p : Except Malformation (Parsed α ts)}
    {q : α × List Token} (h : readOf p = some q) : q.2.length < ts.length := by
  obtain ⟨r, -, rfl⟩ := Option.map_eq_some_iff.mp h
  exact r.shorter

/-! ## The reader follows the rules

Tokens are used up before the reader is called for a part, so that what is read from fewer tokens may be
taken to follow the rules. -/

section

variable {ts : List Token}
  (hbehind : ∀ us : List Token, us.length ≤ ts.length → ∀ {x rest}, Item.IsRead us rest x → Reads us x rest)

include hbehind

/-- What `read?` finds behind a name is read. -/
theorem reads_of_read?_ident {name : String} {rest : List Token} {t : Ty}
    (h : read? (.ident name :: ts) = some (t, rest)) : Reads (.ident name :: ts) (.type t) rest := by
  by_cases hfn : name = "fn"
  · subst hfn
    rw [read?_fn] at h
    obtain ⟨opened, hopened, h⟩ := Option.bind_eq_some_iff.mp h
    obtain ⟨⟨params, after⟩, hparams, h⟩ := Option.bind_eq_some_iff.mp h
    obtain ⟨⟨ret, rest'⟩, hret, heq⟩ := Option.map_eq_some_iff.mp h
    obtain ⟨rfl, rfl⟩ := Prod.mk.inj heq
    obtain rfl := eq_cons_of_expect? hopened
    have hafter : after.length < opened.length := length_lt_of_readOf hparams
    have hlist := hbehind opened (Nat.le_succ _) (x := .list params.1 params.2) hparams
    exact .fn hlist (hbehind after (Nat.le_succ_of_le (Nat.le_of_lt hafter)) (x := .ret ret) hret)
  by_cases happlied : ts.head? = some (.sym '<')
  · obtain ⟨ts', rfl⟩ := List.head?_eq_some_iff.mp happlied
    rw [read?_applied hfn] at h
    obtain ⟨⟨args, rest'⟩, hargs, heq⟩ := Option.map_eq_some_iff.mp h
    obtain ⟨rfl, rfl⟩ := Prod.mk.inj heq
    exact .applied hfn (hbehind ts' (Nat.le_succ _) (x := .args args.1 args.2) hargs)
  · rw [read?_name hfn happlied] at h
    obtain ⟨rfl, rfl⟩ := Prod.mk.inj (Option.some.inj h)
    exact .name hfn happlied

/-- What `read?` finds behind a sign is read. -/
theorem reads_of_read?_sym {c : Char} {rest : List Token} {t : Ty}
    (h : read? (.sym c :: ts) = some (t, rest)) : Reads (.sym c :: ts) (.type t) rest := by
  by_cases hstarts : (Token.sym c).startsTy = true
  · have hc : c ∈ ['(', '[', '&', '*', '!'] := List.contains_iff_mem.mp hstarts
    simp only [List.mem_cons, List.not_mem_nil, or_false] at hc
    rcases hc with rfl | rfl | rfl | rfl | rfl
    · rw [read?_paren] at h
      obtain ⟨⟨elems, rest'⟩, helems, heq⟩ := Option.map_eq_some_iff.mp h
      obtain ⟨rfl, rfl⟩ := Prod.mk.inj heq
      exact .paren (hbehind ts (Nat.le_refl _) (x := .list elems.1 elems.2) helems)
    · rw [read?_array] at h
      obtain ⟨⟨elem, after⟩, helem, h⟩ := Option.bind_eq_some_iff.mp h
      obtain ⟨sizes, hsizes, h⟩ := Option.bind_eq_some_iff.mp h
      obtain ⟨⟨size, after'⟩, hsize, h⟩ := Option.bind_eq_some_iff.mp h
      obtain ⟨rest', hrest, heq⟩ := Option.map_eq_some_iff.mp h
      obtain ⟨rfl, rfl⟩ := Prod.mk.inj heq
      obtain ⟨digits, rfl, hdigits⟩ := readSize?_cases hsize
      obtain rfl := eq_cons_of_expect? hsizes
      obtain rfl := eq_cons_of_expect? hrest
      exact .array (hbehind ts (Nat.le_refl _) (x := .type elem) helem) hdigits
    · rw [read?_ref] at h
      obtain ⟨⟨inner, rest'⟩, hinner, heq⟩ := Option.map_eq_some_iff.mp h
      obtain ⟨rfl, rfl⟩ := Prod.mk.inj heq
      have hle := Nat.le_trans (length_afterWord_le "mut" _) (length_afterRegion_le ts)
      exact .ref (hbehind _ hle (x := .type inner) hinner)
    · rw [read?_ptr] at h
      obtain ⟨hstart, h⟩ := Option.ite_none_right_eq_some.mp h
      obtain ⟨⟨inner, rest'⟩, hinner, heq⟩ := Option.map_eq_some_iff.mp h
      obtain ⟨rfl, rfl⟩ := Prod.mk.inj heq
      obtain ⟨word, ts', hword, rfl⟩ := exists_of_startsWith_or hstart
      exact .ptr hword (hbehind ts' (Nat.le_succ _) (x := .type inner) hinner)
    · rw [read?_never] at h
      obtain ⟨rfl, rfl⟩ := Prod.mk.inj (Option.some.inj h)
      exact .never
  · rw [read?_of_startsTy (Bool.not_eq_true _ ▸ hstarts)] at h
    cases h

end

section

variable {ts : List Token}
  (hbelow : ∀ us : List Token, us.length < ts.length → ∀ {x rest}, Item.IsRead us rest x → Reads us x rest)

include hbelow

/-- What `read?` finds is read: the first token chooses the rule. -/
theorem reads_of_read? {rest : List Token} {t : Ty} (h : read? ts = some (t, rest)) :
    Reads ts (.type t) rest := by
  cases ts with
  | nil =>
    rw [read?_nil] at h
    cases h
  | cons tok ts =>
    have hbehind (us : List Token) (hus : us.length ≤ ts.length) {x rest}
        (h : Item.IsRead us rest x) : Reads us x rest := hbelow us (Nat.lt_succ_of_le hus) h
    cases tok with
    | var digits =>
      rw [read?_var] at h
      obtain ⟨id, hid, heq⟩ := Option.map_eq_some_iff.mp h
      obtain ⟨rfl, rfl⟩ := Prod.mk.inj heq
      exact .var hid
    | ident name => exact reads_of_read?_ident hbehind h
    | sym c => exact reads_of_read?_sym hbehind h
    | _ =>
      rw [read?_of_startsTy rfl] at h
      cases h

/-- What `readRet?` finds is read. -/
theorem reads_of_readRet? {rest : List Token} {t : Ty} (h : readRet? ts = some (t, rest)) :
    Reads ts (.ret t) rest := by
  by_cases harrow : ts.head? = some .arrow
  · obtain ⟨ts', rfl⟩ := List.head?_eq_some_iff.mp harrow
    exact .arrow (hbelow ts' (by simp) (x := .type t) h)
  · rw [readRet?_eq harrow] at h
    obtain ⟨rfl, rfl⟩ := Prod.mk.inj (Option.some.inj h)
    exact .noArrow harrow

/-- What `readList?` finds is read. -/
theorem reads_of_readList? {rest : List Token} {elems : List Ty} {comma : Bool}
    (h : readList? ')' ts = some ((elems, comma), rest)) : Reads ts (.list elems comma) rest := by
  by_cases hclose : ts.head? = some (.sym ')')
  · obtain ⟨rest', rfl⟩ := List.head?_eq_some_iff.mp hclose
    rw [readList?_close] at h
    cases h
    exact .noElems
  · rw [readList?_eq hclose] at h
    obtain ⟨⟨elem, after⟩, helem, h⟩ := Option.bind_eq_some_iff.mp h
    obtain ⟨⟨more, rest'⟩, hmore, heq⟩ := Option.map_eq_some_iff.mp h
    cases heq
    have hshorter : after.length < ts.length := length_lt_of_readOf helem
    have hfirst := reads_of_read? hbelow helem
    rcases readMore?_cases hmore with ⟨ts', others, rfl, hothers, rfl⟩ | ⟨rfl, rfl⟩
    · have hlength : ts'.length < ts.length := Nat.lt_of_succ_lt hshorter
      exact .elem hfirst (hbelow ts' hlength (x := .list others.1 others.2) hothers)
    · exact .lastElem hfirst

/-- What `readArgs?` finds is read. -/
theorem reads_of_readArgs? {rest : List Token} {regions : List Region} {types : List Ty}
    (h : readArgs? ts = some ((regions, types), rest)) : Reads ts (.args regions types) rest := by
  by_cases hclose : ts.head? = some (.sym '>')
  · obtain ⟨rest', rfl⟩ := List.head?_eq_some_iff.mp hclose
    rw [readArgs?_close] at h
    cases h
    exact .noArgs
  by_cases hregion : ∃ name, ts.head? = some (.region name)
  · obtain ⟨name, hname⟩ := hregion
    obtain ⟨after, rfl⟩ := List.head?_eq_some_iff.mp hname
    rw [readArgs?_region] at h
    obtain ⟨⟨more, rest'⟩, hmore, heq⟩ := Option.map_eq_some_iff.mp h
    cases heq
    rcases readMoreArgs?_cases hmore with ⟨ts', rfl, hothers⟩ | ⟨rfl, rfl⟩
    · exact .region (hbelow ts' (Nat.lt_add_of_pos_right Nat.two_pos) (x := .args more.1 more.2) hothers)
    · exact .lastRegion
  · rw [readArgs?_eq hclose (not_exists.mp hregion)] at h
    obtain ⟨⟨arg, after⟩, harg, h⟩ := Option.bind_eq_some_iff.mp h
    obtain ⟨⟨more, rest'⟩, hmore, heq⟩ := Option.map_eq_some_iff.mp h
    cases heq
    have hshorter : after.length < ts.length := length_lt_of_readOf harg
    have hfirst := reads_of_read? hbelow harg
    rcases readMoreArgs?_cases hmore with ⟨ts', rfl, hothers⟩ | ⟨rfl, rfl⟩
    · have hlength : ts'.length < ts.length := Nat.lt_of_succ_lt hshorter
      exact .arg hfirst (hbelow ts' hlength (x := .args more.1 more.2) hothers)
    · exact .lastArg hfirst

end

/-- What the parser finds is read. -/
theorem Item.IsRead.reads {ts rest : List Token} {x : Item} (h : x.IsRead ts rest) :
    Reads ts x rest := by
  induction hlength : ts.length using Nat.strongRecOn generalizing ts x rest with
  | _ n ih =>
    have hbelow (us : List Token) (hus : us.length < ts.length) {x rest} (h : Item.IsRead us rest x) :
        Reads us x rest := ih us.length (hlength ▸ hus) h rfl
    cases x with
    | type t => exact reads_of_read? hbelow h
    | ret t => exact reads_of_readRet? hbelow h
    | list elems comma => exact reads_of_readList? hbelow h
    | args regions types => exact reads_of_readArgs? hbelow h

/-! ## The rules are followed by the reader -/

/-- What is read is found by the parser. -/
theorem Reads.isRead {ts rest : List Token} {x : Item} (h : Reads ts x rest) : x.IsRead ts rest := by
  -- each rule is one unfolding of the reader that it belongs to
  induction h with
  | var hid =>
    show read? _ = _
    rw [read?_var, hid]
    rfl
  | fn _ _ hparams hret =>
    show read? _ = _
    rw [read?_fn, expect?_self, Option.bind_some, hparams, Option.bind_some, hret]
    rfl
  | name hfn hts => exact read?_name hfn hts
  | applied hfn _ hargs =>
    show read? _ = _
    rw [read?_applied hfn, hargs]
    rfl
  | paren _ helems =>
    show read? _ = _
    rw [read?_paren, helems]
    rfl
  | array _ hsize helem =>
    show read? _ = _
    rw [read?_array, helem]
    simp only [Option.bind_some, expect?_self, readSize?, hsize, Option.map_some]
  | ref _ hinner =>
    show read? _ = _
    rw [read?_ref, hinner]
    rfl
  | ptr hword _ hinner =>
    show read? _ = _
    rw [read?_ptr, if_pos (by simpa [startsWith] using hword), List.tail_cons, hinner]
    rfl
  | never => exact read?_never _
  | arrow _ hret => exact hret
  | noArrow hts => exact readRet?_eq hts
  | noElems => exact readList?_close ')' _
  | lastElem _ helem =>
    show readList? _ _ = _
    rw [readList?_eq (head?_ne_of_read? helem rfl), helem, Option.bind_some, readMore?_close (by decide)]
    rfl
  | elem _ _ helem helems =>
    show readList? _ _ = _
    rw [readList?_eq (head?_ne_of_read? helem rfl), helem, Option.bind_some, readMore?, helems]
    rfl
  | noArgs => exact readArgs?_close _
  | lastRegion =>
    show readArgs? _ = _
    rw [readArgs?_region]
    rfl
  | region _ hargs =>
    show readArgs? _ = _
    rw [readArgs?_region, readMoreArgs?_comma, hargs]
    rfl
  | lastArg _ harg =>
    show readArgs? _ = _
    rw [readArgs?_eq (head?_ne_of_read? harg rfl) (fun _ => head?_ne_of_read? harg rfl), harg]
    rfl
  | arg _ _ harg hargs =>
    show readArgs? _ = _
    rw [readArgs?_eq (head?_ne_of_read? harg rfl) (fun _ => head?_ne_of_read? harg rfl), harg,
      Option.bind_some, readMoreArgs?_comma, hargs]
    rfl

/-- What the reader does, as a relation. -/
theorem reads_iff {ts rest : List Token} {x : Item} : Reads ts x rest ↔ x.IsRead ts rest :=
  ⟨Reads.isRead, Item.IsRead.reads⟩

/-- What the reader of types does, as a relation. -/
theorem read?_eq_some_iff {ts rest : List Token} {t : Ty} :
    read? ts = some (t, rest) ↔ Reads ts (.type t) rest :=
  (reads_iff (x := .type t)).symm

end Generics.Ty

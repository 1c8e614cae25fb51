import DynVal.Proofs.Dispatch.Methods
import DynVal.World

/-!
# Native procedures check before they act

What a native procedure asks of its arguments is its signature: how many there are, and what each of
them has to be. A call with other arguments is refused before anything is done.

* `Native.Checks`: where the arguments do not fit a signature, the procedure is the failure that
  says so and nothing else.
* `Native.checks_procedures`: every procedure checks the signature that is listed under its name.
* `Native.offers_initial`: the table of a new world leads to these procedures.
* `Native.refuses_unfit_arguments`: calls of what is in that table.
-/

namespace DynVal.Native

open Script

/-! ## Signatures -/

/-- What a procedure asks of one argument. -/
inductive Param where
  | any
  | ref
  | path
  | key
  | fn
  | quote
  | str
  | exitCode
deriving DecidableEq

namespace Param

/-- How messages name it. -/
def expected : Param → String
  | .any => "value"
  | .ref => "ref"
  | .path => "string path"
  | .key => "tag"
  | .fn => "fn"
  | .quote => "quote"
  | .str => "string"
  | .exitCode => "integer exit code"

/-- A name is a tag, a string or a symbol, and an exit code is a number without a fraction. -/
def accepts (p : Param) (v : Value) : Bool :=
  match p, v with
  | .any, _ => true
  | .ref, .ref _ => true
  | .path, .str _ | .path, .tag _ | .path, .symbol _ => true
  | .key, .str _ | .key, .tag _ | .key, .symbol _ => true
  | .fn, .fn _ => true
  | .quote, .quote _ => true
  | .str, .str _ => true
  | .exitCode, .number n => n.isIntegral
  | _, _ => false

end Param

/-- The arguments that a procedure takes. Further ones may follow where it is open. -/
structure Signature where
  params : List Param
  isOpen : Bool
deriving DecidableEq

namespace Signature

variable (sig : Signature) (args : List Value)

/-- So many arguments may be given. -/
def Fits (n : Nat) : Prop := if sig.isOpen then sig.params.length ≤ n else n = sig.params.length

/-- The first argument that is not what was asked for. -/
def refused? : Option (Param × Value) :=
  (sig.params.zip args).find? fun p => !p.1.accepts p.2

end Signature

/-- What all procedures ask for. -/
def signatures : List (String × Signature) :=
  [("ref", ⟨[.any], false⟩), ("defref", ⟨[.path, .any], false⟩), ("ref?", ⟨[.any], false⟩),
   ("deref", ⟨[.ref], false⟩), ("reset!", ⟨[.ref, .any], false⟩),
   ("add-watch", ⟨[.ref, .key, .fn], false⟩), ("remove-watch", ⟨[.ref, .key], false⟩),
   ("to-cirru-edn", ⟨[.any], false⟩), ("extract-cirru-edn", ⟨[.quote], false⟩),
   ("&invoke", ⟨[.any, .key], true⟩), ("&methods-of", ⟨[.any], false⟩),
   ("read-file", ⟨[.str], false⟩), ("write-file", ⟨[.str, .str], false⟩),
   ("get-env", ⟨[.str], false⟩), ("now!", ⟨[], false⟩), ("quit!", ⟨[.exitCode], false⟩)]

/-! ## Checks -/

/-- The procedure does nothing but fail where its arguments do not fit the signature: their number
counts first, and then the first of them that is refused. -/
structure Checks (name : String) (sig : Signature) (body : Body) : Prop where
  count : ∀ args, ¬ sig.Fits args.length → body args = wrongCount name sig.params.length args
  kind : ∀ args p v, sig.Fits args.length → sig.refused? args = some (p, v) →
    body args = wrongKind name p.expected v

section Refusals

variable {name : String} {p q : Param} {ps : List Param} {isOpen : Bool} {args : List Value}
  {v w : Value}

theorem refused?_nil : Signature.refused? ⟨[], isOpen⟩ args = none := by
  simp [Signature.refused?]

theorem refused?_cons_eq_some :
    Signature.refused? ⟨p :: ps, isOpen⟩ (v :: args) = some (q, w) ↔
      p.accepts v = false ∧ p = q ∧ v = w ∨
        p.accepts v = true ∧ Signature.refused? ⟨ps, isOpen⟩ args = some (q, w) := by
  cases h : p.accepts v <;> simp [Signature.refused?, h]

theorem accepts_any : Param.any.accepts v = true := rfl

end Refusals

/-- A check of one argument: an accepted one goes through and any other one is refused. -/
structure Expects {β : Type} (op : String) (p : Param) (check : Value → Script β) : Prop where
  refuse : ∀ v, p.accepts v = false → check v = wrongKind op p.expected v
  pass : ∀ v, p.accepts v = true → ∃ b, check v = .done b

section Expects

variable (op : String)

theorem expects_ref : Expects op .ref (expectRef op) where
  refuse v h := by cases v <;> first | rfl | cases h
  pass v h := by
    cases v with
    | ref r => exact ⟨r, rfl⟩
    | _ => cases h

theorem expects_str : Expects op .str (expectStr op) where
  refuse v h := by cases v <;> first | rfl | cases h
  pass v h := by
    cases v with
    | str s => exact ⟨s, rfl⟩
    | _ => cases h

theorem expects_fn : Expects op .fn (expectFn op) where
  refuse v h := by cases v <;> first | rfl | cases h
  pass v h := by
    cases v with
    | fn f => exact ⟨f, rfl⟩
    | _ => cases h

theorem expects_path : Expects op .path (expectPath op) where
  refuse v h := by cases v <;> first | rfl | cases h
  pass v h := by
    cases v with
    | str s => exact ⟨s, rfl⟩
    | tag t => exact ⟨t.name, rfl⟩
    | symbol s => exact ⟨s.name, rfl⟩
    | _ => cases h

theorem expects_key : Expects op .key fun v => ofExcept (fieldTag op v) where
  refuse v h := by cases v <;> first | rfl | cases h
  pass v h := by
    cases v with
    | str s => exact ⟨_, rfl⟩
    | tag t => exact ⟨_, rfl⟩
    | symbol s => exact ⟨_, rfl⟩
    | _ => cases h

end Expects

section Arity

variable {name : String} {body : Body} {p q : Param}

theorem checks_unary (hnone : body [] = wrongCount name 1 [])
    (hmore : ∀ v w args, body (v :: w :: args) = wrongCount name 1 (v :: w :: args))
    (hfirst : ∀ v, p.accepts v = false → body [v] = wrongKind name p.expected v) :
    Checks name ⟨[p], false⟩ body where
  count
    | [], _ => hnone
    | [_], h => absurd rfl h
    | v :: w :: args, _ => hmore v w args
  kind args p' u hfits h := by
    obtain ⟨v, rfl⟩ := List.length_eq_one_iff.mp hfits
    simp only [refused?_cons_eq_some, refused?_nil, reduceCtorEq, and_false, or_false] at h
    obtain ⟨hv, rfl, rfl⟩ := h
    exact hfirst v hv

theorem checks_binary (hnone : body [] = wrongCount name 2 [])
    (hone : ∀ v, body [v] = wrongCount name 2 [v])
    (hmore : ∀ v w u args, body (v :: w :: u :: args) = wrongCount name 2 (v :: w :: u :: args))
    (hfirst : ∀ v w, p.accepts v = false → body [v, w] = wrongKind name p.expected v)
    (hsecond : ∀ v w, p.accepts v = true → q.accepts w = false →
      body [v, w] = wrongKind name q.expected w) : Checks name ⟨[p, q], false⟩ body where
  count
    | [], _ => hnone
    | [v], _ => hone v
    | [_, _], h => absurd rfl h
    | v :: w :: u :: args, _ => hmore v w u args
  kind args p' u hfits h := by
    obtain ⟨v, w, rfl⟩ := List.length_eq_two.mp hfits
    simp only [refused?_cons_eq_some, refused?_nil, reduceCtorEq, and_false, or_false] at h
    obtain ⟨hv, rfl, rfl⟩ | ⟨hv, hw, rfl, rfl⟩ := h
    · exact hfirst v w hv
    · exact hsecond v w hv hw

/-- What accepts any value refuses none. -/
theorem not_refused_any {v : Value} (h : Param.any.accepts v = false) : False :=
  Bool.false_ne_true (h.symm.trans accepts_any)

/-- One argument of any kind: only its number is checked. -/
theorem checks_any (hnone : body [] = wrongCount name 1 [])
    (hmore : ∀ v w args, body (v :: w :: args) = wrongCount name 1 (v :: w :: args)) :
    Checks name ⟨[.any], false⟩ body :=
  checks_unary hnone hmore fun _ h => (not_refused_any h).elim

end Arity

/-! ## The procedures -/

theorem checks_ref : Checks "ref" ⟨[.any], false⟩ ref := checks_any rfl fun _ _ _ => rfl

theorem checks_defref : Checks "defref" ⟨[.path, .any], false⟩ defref := by
  refine checks_binary rfl (fun _ => rfl) (fun _ _ _ _ => rfl) ?_ ?_
  · intro v w hv
    simp only [defref, (expects_path _).refuse v hv]
    rfl
  · intro v w _ hw
    exact (not_refused_any hw).elim

theorem checks_isRef : Checks "ref?" ⟨[.any], false⟩ isRef := checks_any rfl fun _ _ _ => rfl

theorem checks_deref : Checks "deref" ⟨[.ref], false⟩ deref := by
  refine checks_unary rfl (fun _ _ _ => rfl) ?_
  intro v hv
  simp only [deref, (expects_ref _).refuse v hv]
  rfl

theorem checks_reset : Checks "reset!" ⟨[.ref, .any], false⟩ reset := by
  refine checks_binary rfl (fun _ => rfl) (fun _ _ _ _ => rfl) ?_ ?_
  · intro v w hv
    simp only [reset, (expects_ref _).refuse v hv]
    rfl
  · intro v w _ hw
    exact (not_refused_any hw).elim

/-- The key is read before the function is looked at, and nothing is watched until both are. -/
theorem checks_addWatch : Checks "add-watch" ⟨[.ref, .key, .fn], false⟩ addWatch where
  count
    | [], _ | [_], _ | [_, _], _ | _ :: _ :: _ :: _ :: _, _ => rfl
    | [_, _, _], h => absurd rfl h
  kind args p u hfits h := by
    obtain ⟨r, key, f, rfl⟩ := List.length_eq_three.mp hfits
    simp only [refused?_cons_eq_some, refused?_nil, reduceCtorEq, and_false, or_false] at h
    obtain ⟨hr, rfl, rfl⟩ | ⟨hr, ⟨hkey, rfl, rfl⟩ | ⟨hkey, hf, rfl, rfl⟩⟩ := h
    · simp only [addWatch, (expects_ref _).refuse r hr]
      rfl
    · obtain ⟨cell, hcell⟩ := (expects_ref "add-watch").pass r hr
      simp only [addWatch, hcell, (expects_key _).refuse key hkey]
      rfl
    · obtain ⟨cell, hcell⟩ := (expects_ref "add-watch").pass r hr
      obtain ⟨tag, htag⟩ := (expects_key "add-watch").pass key hkey
      simp only [addWatch, hcell, htag, (expects_fn _).refuse f hf]
      rfl

theorem checks_removeWatch : Checks "remove-watch" ⟨[.ref, .key], false⟩ removeWatch := by
  refine checks_binary rfl (fun _ => rfl) (fun _ _ _ _ => rfl) ?_ ?_
  · intro r key hr
    simp only [removeWatch, (expects_ref _).refuse r hr]
    rfl
  · intro r key hr hkey
    obtain ⟨cell, hcell⟩ := (expects_ref "remove-watch").pass r hr
    simp only [removeWatch, hcell, (expects_key _).refuse key hkey]
    rfl

theorem checks_toWire : Checks "to-cirru-edn" ⟨[.any], false⟩ toWire :=
  checks_any rfl fun _ _ _ => rfl

theorem checks_fromWire : Checks "extract-cirru-edn" ⟨[.quote], false⟩ fromWire := by
  refine checks_unary rfl (fun v _ _ => by cases v <;> rfl) ?_
  intro v hv
  cases v with
  | quote c => cases hv
  | _ => rfl

/-- Further arguments are those of the method. -/
theorem checks_invoke : Checks "&invoke" ⟨[.any, .key], true⟩ invoke where
  count
    | [], _ | [_], _ => rfl
    | _ :: _ :: args, h => absurd (Nat.le_add_left 2 args.length) h
  kind args p u hfits h := by
    obtain ⟨obj, key, args, rfl⟩ : ∃ obj key rest, args = obj :: key :: rest := by
      match args, hfits with
      | obj :: key :: rest, _ => exact ⟨obj, key, rest, rfl⟩
    simp only [refused?_cons_eq_some, refused?_nil, reduceCtorEq, and_false, or_false, accepts_any,
      false_and, true_and, false_or, Bool.true_eq_false] at h
    obtain ⟨hkey, rfl, rfl⟩ := h
    simp only [invoke, (expects_key _).refuse key hkey]
    rfl

theorem checks_methodsOf : Checks "&methods-of" ⟨[.any], false⟩ methodsOf :=
  checks_any rfl fun _ _ _ => rfl

theorem checks_readFile : Checks "read-file" ⟨[.str], false⟩ readFile := by
  refine checks_unary rfl (fun _ _ _ => rfl) ?_
  intro v hv
  simp only [readFile, (expects_str _).refuse v hv]
  rfl

theorem checks_writeFile : Checks "write-file" ⟨[.str, .str], false⟩ writeFile := by
  refine checks_binary rfl (fun _ => rfl) (fun _ _ _ _ => rfl) ?_ ?_
  · intro path content hpath
    simp only [writeFile, (expects_str _).refuse path hpath]
    rfl
  · intro path content hpath hcontent
    obtain ⟨name, hname⟩ := (expects_str "write-file").pass path hpath
    simp only [writeFile, hname, (expects_str _).refuse content hcontent]
    rfl

theorem checks_getEnv : Checks "get-env" ⟨[.str], false⟩ getEnv := by
  refine checks_unary rfl (fun _ _ _ => rfl) ?_
  intro v hv
  simp only [getEnv, (expects_str _).refuse v hv]
  rfl

theorem checks_now : Checks "now!" ⟨[], false⟩ now where
  count
    | [], h => absurd rfl h
    | _ :: _, _ => rfl
  kind _ _ _ _ h := by
    rw [refused?_nil] at h
    cases h

/-- A number with a fraction is refused as a value of another kind is. -/
theorem checks_quit : Checks "quit!" ⟨[.exitCode], false⟩ quit := by
  refine checks_unary rfl (fun v _ _ => by cases v <;> rfl) ?_
  intro v hv
  cases v with
  | number n =>
    have hn : n.isIntegral = false := hv
    simp only [quit, hn, Bool.false_eq_true, if_false]
    rfl
  | _ => rfl

/-- Each procedure checks what is listed under its name. -/
theorem checks_procedures : List.Forall₂ (fun sig p => sig.1 = p.1 ∧ Checks sig.1 sig.2 p.2)
    signatures procedures := by
  simp only [signatures, procedures, List.forall₂_cons, true_and, List.forall₂_nil_left_iff,
    and_true]
  exact ⟨checks_ref, checks_defref, checks_isRef, checks_deref, checks_reset, checks_addWatch,
    checks_removeWatch, checks_toWire, checks_fromWire, checks_invoke, checks_methodsOf,
    checks_readFile, checks_writeFile, checks_getEnv, checks_now, checks_quit⟩

/-! ## The table -/

/-- The native table of a world leads to these procedures. -/
structure Offers (w : World) (ps : List (String × Body)) : Prop where
  body : ∀ name, (Assoc.get? w.store.natives name).map (World.bodyIn w.bodies) = Assoc.get? ps name
  known : ∀ name f, Assoc.get? w.store.natives name = some f → f.id < w.bodies.size

theorem Offers.define {w : World} {ps : List (String × Body)} (h : Offers w ps) (name : String)
    (body : Body) : Offers (w.defineNative name body) (Assoc.put name body ps) := by
  obtain ⟨store, bodies⟩ := w
  have hlast : World.bodyIn (bodies.push body) ⟨bodies.size, name⟩ = body := by
    simp [World.bodyIn]
  have hearlier : ∀ f : Fn, f.id < bodies.size →
      World.bodyIn (bodies.push body) f = World.bodyIn bodies f := by
    intro f hf
    simp [World.bodyIn, hf, Nat.lt_succ_of_lt hf, Array.getElem_push_lt hf]
  constructor
  · intro name'
    change (Assoc.get? (Assoc.put name ⟨bodies.size, name⟩ store.natives) name').map
      (World.bodyIn (bodies.push body)) = _
    rw [Assoc.get?_put, Assoc.get?_put]
    by_cases hn : name == name'
    · simp [hn, hlast]
    · rw [if_neg hn, if_neg hn, ← h.body name']
      refine Option.map_congr fun f hf => ?_
      exact hearlier f (h.known name' f hf)
  · intro name' f hf
    change Assoc.get? (Assoc.put name ⟨bodies.size, name⟩ store.natives) name' = some f at hf
    change f.id < (bodies.push body).size
    rw [Assoc.get?_put] at hf
    rw [Array.size_push]
    split at hf
    case isTrue =>
      cases hf
      exact Nat.lt_succ_self _
    case isFalse => exact Nat.lt_succ_of_lt (h.known name' f hf)

theorem Offers.defineAll {qs : List (String × Body)} {w : World} {ps : List (String × Body)}
    (h : Offers w ps) : Offers (qs.foldl (fun w p => w.defineNative p.1 p.2) w)
      (qs.foldl (fun ps p => Assoc.put p.1 p.2 ps) ps) := by
  induction qs generalizing w ps with
  | nil => exact h
  | cons q qs ih => exact ih (h.define q.1 q.2)

/-- No two procedures have one name. -/
theorem put_procedures : procedures.foldl (fun ps p => Assoc.put p.1 p.2 ps) [] = procedures := by
  simp [procedures, Assoc.put]

theorem offers_initial (host : Host) : Offers (World.initial host) procedures := by
  have h : Offers ⟨.initial host, #[]⟩ [] := ⟨fun _ => rfl, fun _ _ h => by cases h⟩
  have hall := @Offers.defineAll procedures _ _ h
  rwa [put_procedures] at hall

/-- A name stands in both lists or in neither, and what is first under it in one checks what is
first under it in the other. -/
theorem checks_get? {sigs : List (String × Signature)} {ps : List (String × Body)}
    (h : List.Forall₂ (fun sig p => sig.1 = p.1 ∧ Checks sig.1 sig.2 p.2) sigs ps)
    (name : String) : (Assoc.get? ps name).isSome = (Assoc.get? sigs name).isSome ∧
      ∀ sig body, Assoc.get? sigs name = some sig → Assoc.get? ps name = some body →
        Checks name sig body := by
  induction h with
  | nil => exact ⟨rfl, fun sig body hsig => by cases hsig⟩
  | @cons sig p sigs ps hp _ ih =>
    obtain ⟨hname, hchecks⟩ := hp
    by_cases hn : sig.1 == name
    · have hp : p.1 == name := hname ▸ hn
      rw [eq_of_beq hn] at hchecks
      simpa [Assoc.get?, hn, hp] using hchecks
    · have hp : ¬ (p.1 == name) = true := hname ▸ hn
      simpa [Assoc.get?, hn, hp] using ih

/-! ## Calls -/

section Calls

variable {callee : Fn → List Value → Op Value} {name : String} {sig : Signature} {body : Body}
  {args : List Value} {s : Store}

theorem Checks.exec_count (h : Checks name sig body) (hfits : ¬ sig.Fits args.length) :
    exec callee (body args) s =
      (.error (.error (.arity name sig.params.length args.length)), s) := by
  rw [h.count args hfits]
  rfl

theorem Checks.exec_kind (h : Checks name sig body) (hfits : sig.Fits args.length)
    (hrefused : ∃ p ∈ sig.params.zip args, p.1.accepts p.2 = false) :
    ∃ p, sig.refused? args = some p ∧ exec callee (body args) s =
      (.error (.error (.typeMismatch name p.1.expected p.2.typeName)), s) := by
  obtain ⟨p, hp, hrefused⟩ := hrefused
  obtain ⟨q, hq⟩ := Option.isSome_iff_exists.mp
    (List.find?_isSome (p := fun p => !p.1.accepts p.2).mpr ⟨p, hp, by simpa using hrefused⟩)
  refine ⟨q, hq, ?_⟩
  rw [h.kind args q.1 q.2 hfits hq]
  rfl

end Calls

/-- The table of a new world has the listed procedures and no others. In whatever state one of them
is called, a wrong number of arguments is reported as such, whatever they are, and in the right
number the first argument that is refused is reported. The state is then the one that was found,
with its cells, their watchers, the registry, the counter of paths, the tables and the host, and the
program goes on. -/
theorem refuses_unfit_arguments (host : Host) (name : String) :
    ((Assoc.get? (World.initial host).store.natives name).isSome ↔
        (Assoc.get? signatures name).isSome) ∧
      ∀ f sig, Assoc.get? (World.initial host).store.natives name = some f →
        Assoc.get? signatures name = some sig → ∀ callee args s,
          (¬ sig.Fits args.length →
            exec callee (World.bodyIn (World.initial host).bodies f args) s =
              (.error (.error (.arity name sig.params.length args.length)), s)) ∧
          (sig.Fits args.length → (∃ p ∈ sig.params.zip args, p.1.accepts p.2 = false) →
            ∃ p, sig.refused? args = some p ∧
              exec callee (World.bodyIn (World.initial host).bodies f args) s =
                (.error (.error (.typeMismatch name p.1.expected p.2.typeName)), s)) := by
  obtain ⟨hlisted, hchecks⟩ := checks_get? checks_procedures name
  rw [← (offers_initial host).body name] at hlisted hchecks
  constructor
  · rw [← hlisted, Option.isSome_map]
  · intro f sig hf hsig callee args s
    have hbody := hchecks sig _ hsig (congrArg _ hf)
    exact ⟨hbody.exec_count, hbody.exec_kind⟩

/-- A number is no text, and a path alone is not enough: nothing is written. -/
theorem refuses_unfit_arguments_write :
    let callee : Fn → List Value → Op Value := fun _ _ => pure .nil
    let start : World := .initial default
    ∃ f, Assoc.get? start.store.natives "write-file" = some f ∧
      exec callee (World.bodyIn start.bodies f [.str "a", .number .nan]) start.store =
        (.error (.error (.typeMismatch "write-file" "string" "number")), start.store) ∧
      exec callee (World.bodyIn start.bodies f [.str "a"]) start.store =
        (.error (.error (.arity "write-file" 2 1)), start.store) := by
  intro callee start
  have hsig : Assoc.get? signatures "write-file" = some ⟨[.str, .str], false⟩ := by decide
  obtain ⟨hlisted, hcalls⟩ := refuses_unfit_arguments default "write-file"
  obtain ⟨f, hf⟩ := Option.isSome_iff_exists.mp (hlisted.mpr (by rw [hsig]; rfl))
  obtain ⟨-, hkind⟩ := hcalls f _ hf hsig callee [.str "a", .number .nan] start.store
  obtain ⟨hcount, -⟩ := hcalls f _ hf hsig callee [.str "a"] start.store
  obtain ⟨p, hp, hanswer⟩ := hkind rfl ⟨(.str, .number .nan), by simp, rfl⟩
  cases hp
  exact ⟨f, hf, hanswer, hcount (by simp [Signature.Fits])⟩

end DynVal.Native

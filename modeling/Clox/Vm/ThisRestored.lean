import Clox.Vm.This

/-! # `this` is what it was before

`popFrame` pops one `this` and one class of a frame, whatever bodies are open in
it, and `pop_EC` pops none. Where that is as many as were pushed, the thread is
after each construct where it was before it.
-/

namespace Clox.This

/-! ## The condition -/

def count (o : Option Obj) : ℕ := if o.isSome then 1 else 0

/-- The frame `f` pops what was pushed in it: `t` and `c` by the bodies that are open in it, and what
the construct itself pushed. -/
def popsAll (t c : ℕ) (construct : Construct) (f : CallFrame) : Bool :=
  match construct with
  | .call f₀ => t + count f₀.inst == count f.inst && c + count f₀.klass == count f.klass
  | .script => t == count f.inst && c == count f.klass
  | .binding thisObj _ => t + count thisObj == count f.inst
  | _ => false

/-- All that the first `n` constructs pushed is popped with their frames; `t` and `c` were pushed
before, and `ok` tells whether `thisObj` is still right. -/
def unwinds : ℕ → ℕ → ℕ → Bool → List Entered → List CallFrame → Bool
  | 0, t, c, ok, _, _ => t == 0 && c == 0 && ok
  | _ + 1, _, _, _, [], _ => false
  | n + 1, t, c, ok, item :: rest, fs =>
    match item.construct with
    | .classBody _ => unwinds n (t + 1) (c + 1) ok rest fs
    | .inBody _ => unwinds n (t + 1) c ok rest fs
    | .handler => unwinds n t c ok rest fs
    | .call _ | .script | .binding _ _ =>
      match fs with
      | [] => false
      | f :: fs => popsAll t c item.construct f && unwinds n 0 0 (ok || f.inst.isSome) rest fs

/-- `pop_EC` pops no `this`: a binding's must be none. -/
def Entered.noThis (item : Entered) : Bool :=
  match item.construct with
  | .binding thisObj _ => thisObj.isNone
  | _ => true

/-- What is left is popped: no `in` statement comes to its end, a frame that is left pops what was
pushed in it, and no body is open in the frame an error lands in. -/
def Matched (th : Thread) : Op → Prop
  | .inEnd => False
  | .leave => th.entered.head?.all Entered.noThis
  | .opReturn => unwinds (th.inFrame + 1) 0 0 true th.entered th.frames
  | .throw n => unwinds n 0 0 true th.entered th.frames ∧ th.entered[n]?.all Entered.noThis
  | .newThrow _ n => unwinds n 0 0 false th.entered th.frames ∧ th.entered[n]?.all Entered.noThis
  | _ => True

instance (th : Thread) : (op : Op) → Decidable (Matched th op)
  | .inEnd => inferInstanceAs (Decidable False)
  | .leave => inferInstanceAs (Decidable (_ = true))
  | .opReturn => inferInstanceAs (Decidable (_ = true))
  | .throw _ | .newThrow _ _ => inferInstanceAs (Decidable (_ = true ∧ _ = true))
  | .call _ | .classBody _ | .classEnd | .inBody _ | .tryBegin | .tryEnd | .load
  | .bindingEval _ _ => inferInstanceAs (Decidable True)

/-! ## The invariant -/

/-- `thisObj` is the last of the stack. -/
def Env.Consistent (e : Env) : Prop := e.thisObj = e.thisStack.head?

/-- Where the flow is right inside a construct. -/
def Construct.inside : Construct → Env → Env
  | .call f, e => e.pushFrame f
  | .script, e => e
  | .binding thisObj crefStack, e => { e.pushFrame { inst := thisObj } with crefStack }
  | .classBody klass, e => (e.pushThis klass).pushCref klass
  | .inBody klass, e => e.pushThis klass
  | .handler, e => e

/-- Each construct was entered where the one around it leads to. -/
def Chain : Env → List Entered → Prop
  | e, [] => e.Consistent
  | e, item :: rest => e = item.construct.inside item.before ∧ Chain item.before rest

/-- The frames are those of the constructs. -/
def Framed (fs : List CallFrame) (entered : List Entered) : Prop :=
  fs.map (·.isCCall) = entered.filterMap (·.construct.isCCall?)

structure Inv (th : Thread) : Prop where
  chain : Chain th.env th.entered
  framed : Framed th.frames th.entered

section

variable {th th' : Thread} {e E : Env} {item : Entered} {rest : List Entered}

theorem Env.Consistent.pushFrame (h : e.Consistent) (f : CallFrame) : (e.pushFrame f).Consistent := by
  cases hi : f.inst with
  | none => simpa [Consistent, Env.pushFrame, hi] using h
  | some this => simp [Consistent, Env.pushFrame, hi]

theorem Construct.inside_consistent (c : Construct) (h : e.Consistent) : (c.inside e).Consistent := by
  cases c with
  | call f => exact h.pushFrame f
  | script => exact h
  | binding thisObj crefStack => exact h.pushFrame { inst := thisObj }
  | classBody klass => rfl
  | inBody klass => rfl
  | handler => exact h

theorem Chain.consistent {entered : List Entered} (h : Chain e entered) : e.Consistent := by
  induction entered generalizing e with
  | nil => exact h
  | cons item rest ih =>
    rw [h.1]
    exact item.construct.inside_consistent (ih h.2)

theorem Chain.before_consistent (h : Chain e (item :: rest)) : item.before.Consistent :=
  Chain.consistent h.2

/-! ## Leaving constructs -/

/-- `e` is `E` with `t` objects and `c` classes pushed. -/
structure Pushed (e E : Env) (t c : ℕ) (ok : Bool) : Prop where
  thisStack : ∃ ts, e.thisStack = ts ++ E.thisStack ∧ ts.length = t
  crefStack : ∃ cs, e.crefStack = cs ++ E.crefStack ∧ cs.length = c
  thisObj : ok = true → t = 0 → e.thisObj = E.thisObj
  inCCall : e.inCCall = E.inCCall

namespace Pushed

variable {t c : ℕ} {ok : Bool}

theorem refl (e : Env) : Pushed e e 0 0 true :=
  ⟨⟨[], rfl, rfl⟩, ⟨[], rfl, rfl⟩, fun _ _ => rfl, rfl⟩

theorem eq (h : Pushed e E 0 0 true) : e = E := by
  obtain ⟨⟨ts, hts, hlen⟩, ⟨cs, hcs, hlen'⟩, hthis, hcall⟩ := h
  rw [List.length_eq_zero_iff.mp hlen, List.nil_append] at hts
  rw [List.length_eq_zero_iff.mp hlen', List.nil_append] at hcs
  have := hthis rfl rfl
  cases e
  cases E
  simp_all

theorem pushThis {klass : Obj} (h : Pushed e (E.pushThis klass) t c ok) :
    Pushed e E (t + 1) c ok := by
  obtain ⟨ts, hts, hlen⟩ := h.thisStack
  refine ⟨⟨ts ++ [klass], ?_, ?_⟩, h.crefStack, ?_, h.inCCall⟩
  · rw [hts]
    simp [Env.pushThis]
  · rw [List.length_append, hlen, List.length_singleton]
  · intro _ ht
    omega

theorem pushCref {klass : Obj} (h : Pushed e (E.pushCref klass) t c ok) :
    Pushed e E t (c + 1) ok := by
  obtain ⟨cs, hcs, hlen⟩ := h.crefStack
  refine ⟨h.thisStack, ⟨cs ++ [klass], ?_, ?_⟩, h.thisObj, h.inCCall⟩
  · rw [hcs]
    simp [Env.pushCref]
  · rw [List.length_append, hlen, List.length_singleton]

/-- A frame pops what was pushed. -/
theorem popFrame {f₀ f : CallFrame} (h : Pushed e (E.pushFrame f₀) t c ok) (hE : E.Consistent)
    (hpops : popsAll t c (.call f₀) f = true) (hcall : f.isCCall = f₀.isCCall) :
    Pushed (e.popFrame f) E 0 0 (ok || f.inst.isSome) := by
  simp only [popsAll, Bool.and_eq_true, beq_iff_eq] at hpops
  obtain ⟨hthis, hcref⟩ := hpops
  obtain ⟨ts, hts, htlen⟩ := h.thisStack
  obtain ⟨cs, hcs, hclen⟩ := h.crefStack
  have hlen : ∀ o : Option Obj, o.toList.length = count o := by
    intro o
    cases o <;> rfl
  -- What is pushed above a stack is all popped.
  have htail : ∀ (l s : List Obj) (o : Option Obj), l.length = count o →
      (if o.isSome then (l ++ s).tail else l ++ s) = s := by
    intro l s o ho
    cases o with
    | none =>
      rw [List.length_eq_zero_iff.mp ho]
      rfl
    | some x =>
      obtain ⟨y, rfl⟩ := List.length_eq_one_iff.mp ho
      rfl
  have hthisStack : (if f.inst.isSome then e.thisStack.tail else e.thisStack) = E.thisStack := by
    rw [hts, Env.pushFrame, ← List.append_assoc]
    exact htail _ _ _ (by rw [List.length_append, htlen, hlen, hthis])
  have hcrefStack : (if f.klass.isSome then e.crefStack.tail else e.crefStack) = E.crefStack := by
    rw [hcs, Env.pushFrame, ← List.append_assoc]
    exact htail _ _ _ (by rw [List.length_append, hclen, hlen, hcref])
  have hinCCall : (if f.isCCall then e.inCCall - 1 else e.inCCall) = E.inCCall := by
    rw [h.inCCall, hcall, Env.pushFrame]
    split
    · rfl
    · rfl
  constructor
  · exact ⟨[], by rw [Env.popFrame_thisStack, hthisStack, List.nil_append], rfl⟩
  · exact ⟨[], by rw [Env.popFrame_crefStack, hcrefStack, List.nil_append], rfl⟩
  · intro hok _
    rw [Env.popFrame_thisObj]
    cases hi : f.inst with
    | none =>
      -- No `this` was pushed at all.
      rw [hi] at hthis hok
      obtain ⟨rfl, hcount⟩ : t = 0 ∧ count f₀.inst = 0 := Nat.add_eq_zero_iff.mp hthis
      have hi₀ : f₀.inst = none := by
        cases h₀ : f₀.inst with
        | none => rfl
        | some x => simp [h₀, count] at hcount
      have hobj := h.thisObj (by simpa using hok) rfl
      rw [Env.pushFrame, hi₀] at hobj
      exact hobj
    | some x =>
      rw [hi, Option.isSome_some, if_pos rfl] at hthisStack
      rw [Option.isSome_some, if_pos rfl, hthisStack, hE]
  · rw [Env.popFrame_inCCall, hinCCall]

end Pushed

theorem popFrame_cons {f : CallFrame} {fs : List CallFrame} (h : th.frames = f :: fs) :
    th.popFrame = { th with env := th.env.popFrame f, frames := fs } := by
  rw [Thread.popFrame, h]

/-- The frame of a construct that has one. -/
theorem Framed.cons {fs : List CallFrame} {b : Bool} (framed : Framed fs (item :: rest))
    (hc : item.construct.isCCall? = some b) :
    ∃ f fs', fs = f :: fs' ∧ f.isCCall = b ∧ Framed fs' rest := by
  simp only [Framed, List.filterMap_cons, hc] at framed
  cases fs with
  | nil => cases framed
  | cons f fs' =>
    rw [List.map_cons, List.cons.injEq] at framed
    exact ⟨f, fs', rfl, framed.1, framed.2⟩

theorem Framed.body {fs : List CallFrame} (framed : Framed fs (item :: rest))
    (hc : item.construct.isCCall? = none) : Framed fs rest := by
  simpa only [Framed, List.filterMap_cons, hc] using framed

/-- The end of a body is not run. -/
theorem leaveLast_body (hentered : th.entered = item :: rest)
    (hc : item.construct.isCCall? = none) : th.leaveLast = { th with entered := rest } := by
  cases h : item.construct <;> simp_all [Thread.leaveLast, Construct.isCCall?]

/-- `Binding#eval` pops the frame, and its caller has its constant scope. -/
theorem Pushed.popBinding {t c : ℕ} {ok : Bool} {thisObj : Option Obj} {crefStack : List Obj}
    {f : CallFrame} (h : Pushed e { E.pushFrame { inst := thisObj } with crefStack } t c ok)
    (hE : E.Consistent) (hpops : popsAll t c (.binding thisObj crefStack) f = true)
    (hcall : f.isCCall = false) :
    Pushed { e.popFrame f with crefStack := E.crefStack } E 0 0 (ok || f.inst.isSome) := by
  have h' : Pushed { e with crefStack := E.crefStack } (E.pushFrame { inst := thisObj }) t 0 ok :=
    ⟨h.thisStack, ⟨[], rfl, rfl⟩, h.thisObj, h.inCCall⟩
  have hpops' : popsAll t 0 (.call { inst := thisObj }) { f with klass := none } = true := by
    simpa [popsAll] using hpops
  have popped := h'.popFrame hE hpops' hcall
  refine ⟨?_, ⟨[], rfl, rfl⟩, ?_, ?_⟩
  · simpa only [Env.popFrame_thisStack] using popped.thisStack
  · simpa only [Env.popFrame_thisObj] using popped.thisObj
  · simpa only [Env.popFrame_inCCall] using popped.inCCall

/-- What is left after the first constructs. -/
structure Left (th th' : Thread) (E : Env) (n : ℕ) : Prop where
  entered : th'.entered = th.entered.drop n
  chain : Chain th'.env th'.entered
  framed : Framed th'.frames th'.entered
  env : ∀ m item, n = m + 1 → th.entered[m]? = some item → th'.env = item.before
  env_zero : n = 0 → th'.env = E

/-- One construct is left, and then `n` more. -/
theorem Left.succ {th₁ : Thread} {n : ℕ} (hentered : th.entered = item :: rest)
    (hentered₁ : th₁.entered = rest) (h : Left th₁ th' item.before n) : Left th th' E (n + 1) := by
  constructor
  · rw [hentered, List.drop_succ_cons, ← hentered₁]
    exact h.entered
  · exact h.chain
  · exact h.framed
  · intro m item' hm hitem
    obtain rfl : n = m := Nat.succ.inj hm
    cases n with
    | zero =>
      obtain rfl : item = item' := by simpa [hentered] using hitem
      exact h.env_zero rfl
    | succ m =>
      refine h.env m item' rfl ?_
      rw [hentered₁]
      simpa [hentered] using hitem
  · intro hn
    cases hn

theorem unwind_left {n t c : ℕ} {ok : Bool} (pushed : Pushed th.env E t c ok)
    (chain : Chain E th.entered) (framed : Framed th.frames th.entered)
    (hu : unwinds n t c ok th.entered th.frames = true) : Left th (th.unwind n) E n := by
  induction n generalizing th E t c ok with
  | zero =>
    simp only [unwinds, Bool.and_eq_true, beq_iff_eq] at hu
    obtain ⟨⟨rfl, rfl⟩, rfl⟩ := hu
    have henv := pushed.eq
    refine ⟨rfl, ?_, framed, by simp, fun _ => henv⟩
    rw [Thread.unwind, henv]
    exact chain
  | succ n ih =>
    cases hentered : th.entered with
    | nil => simp [unwinds, hentered] at hu
    | cons item rest =>
      rw [hentered] at chain framed hu
      have hconsistent := chain.before_consistent
      obtain ⟨hE, chain⟩ := chain
      rw [Thread.unwind]
      cases hc : item.construct with
      | classBody klass =>
        rw [hc, Construct.inside] at hE
        rw [hE] at pushed
        simp only [unwinds, hc] at hu
        have hbody : item.construct.isCCall? = none := by rw [hc]; rfl
        rw [leaveLast_body hentered hbody]
        exact Left.succ hentered rfl (ih pushed.pushCref.pushThis chain (framed.body hbody) hu)
      | inBody klass =>
        rw [hc, Construct.inside] at hE
        rw [hE] at pushed
        simp only [unwinds, hc] at hu
        have hbody : item.construct.isCCall? = none := by rw [hc]; rfl
        rw [leaveLast_body hentered hbody]
        exact Left.succ hentered rfl (ih pushed.pushThis chain (framed.body hbody) hu)
      | handler =>
        rw [hc, Construct.inside] at hE
        rw [hE] at pushed
        simp only [unwinds, hc] at hu
        have hbody : item.construct.isCCall? = none := by rw [hc]; rfl
        rw [leaveLast_body hentered hbody]
        exact Left.succ hentered rfl (ih pushed chain (framed.body hbody) hu)
      | call f₀ =>
        obtain ⟨f, fs, hframes, hcall, framed'⟩ := framed.cons (b := f₀.isCCall) (by rw [hc]; rfl)
        rw [hc, Construct.inside] at hE
        rw [hE] at pushed
        simp only [unwinds, hc, hframes, Bool.and_eq_true] at hu
        have hlast : th.leaveLast =
            { th with env := th.env.popFrame f, frames := fs, entered := rest } := by
          simp only [Thread.leaveLast, hentered, hc, popFrame_cons hframes]
        rw [hlast]
        have pushed' := pushed.popFrame hconsistent hu.1 hcall
        exact Left.succ hentered rfl (ih pushed' chain framed' hu.2)
      | script =>
        obtain ⟨f, fs, hframes, hcall, framed'⟩ := framed.cons (b := false) (by rw [hc]; rfl)
        rw [hc, Construct.inside] at hE
        rw [hE] at pushed
        simp only [unwinds, hc, hframes, Bool.and_eq_true] at hu
        have hlast : th.leaveLast =
            { th with env := th.env.popFrame f, frames := fs, entered := rest } := by
          simp only [Thread.leaveLast, hentered, hc, popFrame_cons hframes]
        rw [hlast]
        -- It is a call that pushes nothing.
        have hpops : popsAll t c (.call {}) f = true := hu.1
        have pushed₀ : Pushed th.env (item.before.pushFrame {}) t c ok := pushed
        have pushed' := pushed₀.popFrame hconsistent hpops hcall
        exact Left.succ hentered rfl (ih pushed' chain framed' hu.2)
      | binding thisObj crefStack =>
        obtain ⟨f, fs, hframes, hcall, framed'⟩ := framed.cons (b := false) (by rw [hc]; rfl)
        rw [hc, Construct.inside] at hE
        rw [hE] at pushed
        simp only [unwinds, hc, hframes, Bool.and_eq_true] at hu
        have hlast : th.leaveLast =
            { th with
              env := { th.env.popFrame f with crefStack := item.before.crefStack }
              frames := fs
              entered := rest } := by
          simp only [Thread.leaveLast, hentered, hc, popFrame_cons hframes]
        rw [hlast]
        have pushed' := pushed.popBinding hconsistent hu.1 hcall
        exact Left.succ hentered rfl (ih pushed' chain framed' hu.2)

/-! ## Steps -/

/-- A script or `eval` is left: a binding has pushed no `this`. -/
theorem inside_popContext (hc : item.construct.isContext = true) (hthis : item.noThis = true)
    (henv : th.env = item.construct.inside item.before) :
    (th.popContext item rest).env = item.before := by
  cases h : item.construct with
  | script =>
    rw [h, Construct.inside] at henv
    simp only [Thread.popContext, h, henv]
  | binding thisObj crefStack =>
    obtain rfl : thisObj = none := by simpa [Entered.noThis, h] using hthis
    rw [h, Construct.inside] at henv
    simp only [Thread.popContext, h, henv]
    rfl
  | call f => simp [h, Construct.isContext] at hc
  | classBody klass => simp [h, Construct.isContext] at hc
  | inBody klass => simp [h, Construct.isContext] at hc
  | handler => simp [h, Construct.isContext] at hc

theorem Framed.tail {fs : List CallFrame} (framed : Framed fs (item :: rest))
    (hc : item.construct.isContext = true) : Framed fs.tail rest := by
  have hcall : item.construct.isCCall? = some false := by
    cases h : item.construct <;> simp_all [Construct.isContext, Construct.isCCall?]
  obtain ⟨f, fs', rfl, -, framed'⟩ := framed.cons hcall
  exact framed'

theorem Framed.modifyHead {fs : List CallFrame} {entered : List Entered} (framed : Framed fs entered)
    (o : Option Obj) : Framed (fs.modifyHead fun f => { f with inst := o }) entered := by
  cases fs with
  | nil => exact framed
  | cons f fs => exact framed

/-- An error lands where its handler was set up. -/
theorem throwTo_restores (th : Thread) {n : ℕ} {ok : Bool} (pushed : Pushed th.env E 0 0 ok)
    (chain : Chain E th.entered) (framed : Framed th.frames th.entered)
    (hu : unwinds n 0 0 ok th.entered th.frames = true)
    (hthis : th.entered[n]?.all Entered.noThis = true) (h : th.throwTo n = some th') :
    Inv th' ∧ ∀ item, th.entered[n]? = some item → th'.env = item.before := by
  have left := unwind_left pushed chain framed hu
  simp only [Thread.throwTo] at h
  split at h
  · cases h
  · split at h
    · cases h
    · next item rest hentered =>
      have hitem : th.entered[n]? = some item := by
        rw [← List.head?_drop, ← left.entered, hentered]
        rfl
      have hchain := left.chain
      have hframed := left.framed
      rw [hentered] at hchain hframed
      obtain ⟨henv, hchain⟩ := hchain
      have restored : th'.env = item.before ∧ th'.entered = rest ∧ Framed th'.frames rest := by
        split at h
        · next hhandler =>
          obtain rfl := Option.some.inj h
          rw [hhandler] at henv
          exact ⟨henv, rfl, hframed.body (by rw [hhandler]; rfl)⟩
        · split at h
          · next hcontext =>
            obtain rfl := Option.some.inj h
            have hnone : item.noThis = true := by simpa [hitem] using hthis
            exact ⟨inside_popContext hcontext hnone henv, rfl, hframed.tail hcontext⟩
          · cases h
      obtain ⟨henv', hentered', hframed'⟩ := restored
      constructor
      · refine ⟨?_, ?_⟩
        · rw [henv', hentered']
          exact hchain
        · rw [hentered']
          exact hframed'
      · intro item' hitem'
        obtain rfl : item = item' := Option.some.inj (hitem.symm.trans hitem')
        exact henv'

theorem pop_inside_classBody (klass : Obj) (h : e.Consistent) :
    ((Construct.classBody klass).inside e).popCref.popThis = e := by
  rw [Env.Consistent] at h
  cases e
  simp_all [Construct.inside, Env.popThis, Env.popCref, Env.pushCref, Env.pushThis]

/-- A step that meets the condition restores what it leaves. -/
theorem Inv.step (inv : Inv th) {op : Op} (hm : Matched th op) (h : th.step op = some th') :
    Inv th' ∧ Restores th op th' := by
  obtain ⟨chain, framed⟩ := inv
  have hnone : th.left op = none → Restores th op th' := by
    intro hleft item hitem
    rw [hleft] at hitem
    cases hitem
  cases op with
  | call f =>
    obtain rfl := Option.some.inj h
    refine ⟨⟨⟨rfl, chain⟩, ?_⟩, hnone rfl⟩
    exact congrArg (f.isCCall :: ·) framed
  | classBody klass =>
    obtain rfl := Option.some.inj h
    exact ⟨⟨⟨rfl, chain⟩, framed.modifyHead _⟩, hnone rfl⟩
  | inBody klass =>
    obtain rfl := Option.some.inj h
    exact ⟨⟨⟨rfl, chain⟩, framed.modifyHead _⟩, hnone rfl⟩
  | tryBegin =>
    obtain rfl := Option.some.inj h
    exact ⟨⟨⟨rfl, chain⟩, framed⟩, hnone rfl⟩
  | load =>
    obtain rfl := Option.some.inj h
    refine ⟨⟨⟨rfl, chain⟩, ?_⟩, hnone rfl⟩
    exact congrArg (false :: ·) framed
  | bindingEval thisObj crefStack =>
    obtain rfl := Option.some.inj h
    refine ⟨⟨⟨?_, chain⟩, ?_⟩, hnone rfl⟩
    · cases thisObj with
      | none => rfl
      | some this => rfl
    · exact congrArg (false :: ·) framed
  | classEnd =>
    simp only [Thread.step] at h
    split at h
    · next klass before rest hentered =>
      obtain rfl := Option.some.inj h
      rw [hentered] at chain framed
      have hconsistent := chain.before_consistent
      obtain ⟨henv, chain⟩ := chain
      have hrestored : th.env.popCref.popThis = before := by
        rw [henv]
        exact pop_inside_classBody klass hconsistent
      refine ⟨⟨?_, (framed.body rfl).modifyHead _⟩, ?_⟩
      · rw [← hrestored] at chain
        exact chain
      · intro item hitem
        rw [Thread.left, hentered, List.head?_cons] at hitem
        obtain rfl := Option.some.inj hitem
        exact hrestored
    · cases h
  | inEnd => exact hm.elim
  | tryEnd =>
    simp only [Thread.step] at h
    split at h
    · next before rest hentered =>
      obtain rfl := Option.some.inj h
      rw [hentered] at chain framed
      have henv : th.env = before := chain.1
      refine ⟨⟨?_, framed.body rfl⟩, ?_⟩
      · rw [henv]
        exact chain.2
      · intro item hitem
        rw [Thread.left, hentered, List.head?_cons] at hitem
        obtain rfl := Option.some.inj hitem
        exact henv
    · cases h
  | leave =>
    simp only [Thread.step] at h
    split at h
    · next item rest hentered =>
      rw [hentered] at chain framed
      split at h
      · next hcontext =>
        obtain rfl := Option.some.inj h
        have hthis : item.noThis = true := by simpa [Matched, hentered] using hm
        have hrestored : (th.popContext item rest).env = item.before :=
          inside_popContext hcontext hthis chain.1
        refine ⟨⟨?_, framed.tail hcontext⟩, ?_⟩
        · rw [hrestored]
          exact chain.2
        · intro item' hitem
          rw [Thread.left, hentered, List.head?_cons] at hitem
          obtain rfl := Option.some.inj hitem
          exact hrestored
      · cases h
    · cases h
  | opReturn =>
    simp only [Thread.step, Option.ite_none_right_eq_some, Option.some.injEq] at h
    obtain ⟨-, rfl⟩ := h
    have left := unwind_left (.refl _) chain framed hm
    exact ⟨⟨left.chain, left.framed⟩, fun item hitem => left.env _ item rfl hitem⟩
  | throw n => exact throwTo_restores th (.refl _) chain framed hm.1 hm.2 h
  | newThrow instanceVal n =>
    have pushed : Pushed { th.env with thisObj := some instanceVal } th.env 0 0 false :=
      ⟨⟨[], rfl, rfl⟩, ⟨[], rfl, rfl⟩, by simp, rfl⟩
    exact throwTo_restores { th with env := { th.env with thisObj := some instanceVal } } pushed
      chain framed hm.1 hm.2 h

/-- In all runs that meet the condition each construct that is left leaves the thread where it was
before it. -/
theorem Run.inv (run : Run Matched th) : Inv th := by
  induction run with
  | init => exact ⟨⟨rfl, rfl⟩, rfl⟩
  | step op _ hop hstep ih => exact (ih.step hop hstep).1

theorem Run.restores (run : Run Matched th) {op : Op} (hm : Matched th op)
    (h : th.step op = some th') : Restores th op th' :=
  (run.inv.step hm h).2

/-- `try { obj.m(); } catch (Error e) {}`: the method defines a class and throws. -/
theorem throwInMethod_restores :
    Restores
      { frames := [{ inst := some 7, klass := some 3 }, {}]
        env := { thisStack := [7], crefStack := [3], thisObj := some 7 }
        entered :=
          [⟨.call { inst := some 7, klass := some 3 }, {}⟩, ⟨.handler, {}⟩, ⟨.call {}, {}⟩] }
      (.throw 1) {} := by
  have begun := Run.step (P := Matched) .tryBegin .init trivial rfl
  have called := begun.step (.call { inst := some 7, klass := some 3 }) trivial rfl
  have defined := (called.step (.classBody 9) trivial rfl).step .classEnd trivial rfl
  exact defined.restores (by decide) rfl

/-- `in Foo {}`: after it `this` is `Foo`. -/
theorem inStatement_keeps_this :
    ∃ th : Thread, Run (fun _ _ => True) th ∧
      ∃ th', th.step .inEnd = some th' ∧ th'.env.thisObj = some 5 ∧ ¬ Restores th .inEnd th' := by
  have entered := Run.step (P := fun _ _ => True) (.inBody 5) .init trivial rfl
  refine ⟨_, entered, _, rfl, rfl, ?_⟩
  intro restores
  have := congrArg Env.thisObj (restores _ rfl)
  cases this

end

end Clox.This

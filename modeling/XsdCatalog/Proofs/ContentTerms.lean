import Mathlib.Data.List.Forall2
import XsdCatalog.Interpretation.Content

/-!
# The terms of content models

The terms of a particle are met in the order of the recursion, whatever the stack holds besides.
They stand for the terms of the written particle, one for one and in its order: nothing is looked
up for a reference, and no type of an element is entered.
-/

namespace XsdCatalog

namespace Particle

private theorem preorder_eq (p : Particle) : p.preorder = p :: preorderAll p.children := by
  obtain ⟨term, occurs, source⟩ := p
  cases term <;> rfl

private theorem preorderAll_append (ps qs : List Particle) :
    preorderAll (ps ++ qs) = preorderAll ps ++ preorderAll qs := by
  induction ps with
  | nil => rfl
  | cons p ps ih => rw [List.cons_append, preorderAll, preorderAll, ih, List.append_assoc]

/-- What is met while a stack is worked off are its particles with all that is below them. -/
theorem walk_eq_preorderAll (stack : List Particle) : walk stack = preorderAll stack := by
  fun_induction walk stack with
  | case1 => rfl
  | case2 p stack _ ih =>
    rw [ih, preorderAll_append, preorderAll, preorder_eq, List.cons_append]

private theorem terms_eq_map_preorder (p : Particle) : p.terms = p.preorder.map (·.term) := by
  rw [terms, walk_eq_preorderAll, preorderAll, preorderAll, List.append_nil]

end Particle

namespace Written

mutual

/-- The written particles of a content model, each before those below it. Types of elements are not
entered. -/
def Particle.preorder : Particle → List Particle
  | ⟨min, max, .model kind children, source⟩ =>
    ⟨min, max, .model kind children, source⟩ :: Particle.preorderAll children
  | p => [p]

def Particle.preorderAll : List Particle → List Particle
  | [] => []
  | p :: ps => Particle.preorder p ++ Particle.preorderAll ps

end

/-- A written element is used as a reference if it has one, and else as a declaration of its own,
with the type that it names or else with one that stands inside it. -/
inductive Element.UsedAs (e : Element Particle) : ElementUse XsdCatalog.Particle → Prop
  | reference {target : QName} (h : e.reference = some target) :
      UsedAs e (.reference target e.nillable e.isAbstract)
  | declared {l : LocalElement XsdCatalog.Particle} (h : e.reference = none)
      (name : l.name = (e.name.map (·.localName)).getD "")
      (named : ∀ n, l.type = some (.named n) ↔ e.typeName = some n)
      (anonymous : (∃ t, l.type = some (.anonymous t)) ↔
        e.typeName = none ∧ e.anonymous.isSome = true)
      (nillable : l.nillable = e.nillable) (isAbstract : l.isAbstract = e.isAbstract)
      (defaultValue : l.defaultValue = e.defaultValue) (fixedValue : l.fixedValue = e.fixedValue) :
      UsedAs e (.declared l)

/-- A named group keeps its name, and a model group its kind and the number of its particles. -/
inductive Term.StandsAs : Term Particle → XsdCatalog.Term XsdCatalog.Particle → Prop
  | element {e : Element Particle} {u : ElementUse XsdCatalog.Particle} (h : e.UsedAs u) :
      StandsAs (.element e) (.element u)
  | wildcard (w : Wildcard) : StandsAs (.wildcard w) (.wildcard w.interpret)
  | group (name : QName) : StandsAs (.group name) (.group name)
  | model (kind : Compositor) {children : List Particle} {particles : List XsdCatalog.Particle}
      (h : particles.length = children.length) :
      StandsAs (.model kind children) (.model { kind, particles })

structure Particle.StandsAs (w : Particle) (p : XsdCatalog.Particle) : Prop where
  term : w.term.StandsAs p.term
  source : p.source = w.source

variable (scope : AttributeScope)

private theorem Element.usedAs_interpretUse (e : Element Particle) :
    e.UsedAs (e.interpretUse scope).value := by
  obtain ⟨name, reference, typeName, anonymous, isAbstract, nillable, defaultValue, fixedValue, _, _,
    _⟩ := e
  cases reference with
  | some target => exact .reference rfl
  | none =>
    refine .declared rfl rfl (fun n => ?_) ?_ rfl rfl rfl rfl
    · cases anonymous <;> cases typeName <;> simp [interpretType]
    · cases anonymous <;> cases typeName <;> simp [interpretType]

private theorem Particle.length_interpretAll (ws : List Particle) :
    (Particle.interpretAll scope ws).value.length = ws.length := by
  induction ws with
  | nil => rfl
  | cons w ws ih => exact congrArg Nat.succ ih

private theorem Term.standsAs_interpret (t : Term Particle) :
    t.StandsAs (t.interpret scope).value := by
  cases t with
  | element e => exact .element (e.usedAs_interpretUse scope)
  | wildcard w => exact .wildcard w
  | group name => exact .group name
  | model kind children => exact .model kind (Particle.length_interpretAll scope children)

private theorem Particle.standsAs_interpret (w : Particle) :
    w.StandsAs (w.interpret scope).value := by
  obtain ⟨min, max, term, source⟩ := w
  exact ⟨term.standsAs_interpret scope, rfl⟩

mutual

private theorem Particle.preorder_interpret : (w : Particle) →
    List.Forall₂ Particle.StandsAs w.preorder (w.interpret scope).value.preorder
  | ⟨min, max, .model kind children, source⟩ =>
    .cons (Particle.standsAs_interpret scope ⟨min, max, .model kind children, source⟩)
      (Particle.preorderAll_interpret children)
  | ⟨min, max, .element e, source⟩ =>
    .cons (Particle.standsAs_interpret scope ⟨min, max, .element e, source⟩) .nil
  | ⟨min, max, .wildcard w, source⟩ =>
    .cons (Particle.standsAs_interpret scope ⟨min, max, .wildcard w, source⟩) .nil
  | ⟨min, max, .group name, source⟩ =>
    .cons (Particle.standsAs_interpret scope ⟨min, max, .group name, source⟩) .nil

private theorem Particle.preorderAll_interpret : (ws : List Particle) →
    List.Forall₂ Particle.StandsAs (Particle.preorderAll ws)
      (XsdCatalog.Particle.preorderAll (Particle.interpretAll scope ws).value)
  | [] => .nil
  | w :: ws => List.rel_append (Particle.preorder_interpret w) (Particle.preorderAll_interpret ws)

end

/-- The terms of an interpreted particle stand for the terms of the written one, one for one and in
document order, and every particle keeps its place in the source. -/
theorem Particle.terms_of_interpret (w : Particle) :
    let p := (w.interpret scope).value
    p.terms = p.preorder.map (·.term) ∧ List.Forall₂ Particle.StandsAs w.preorder p.preorder :=
  ⟨XsdCatalog.Particle.terms_eq_map_preorder _, Particle.preorder_interpret scope w⟩

end Written

end XsdCatalog

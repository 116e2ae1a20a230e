import XsdCatalog.Component.Attribute

/-!
# Content models and complex types

A particle is a term and how often it may occur; the term of a particle may be a group of
particles. Complex types and particles refer to each other, so all types but `Particle` have the
type of particles as a parameter.

The terms of a particle in document order are `Particle.terms`, found with a stack, and
`Particle.preorder`, found by recursion.
-/

namespace XsdCatalog

/-- How often a term may occur; without `max` there is no bound. -/
structure Occurs where
  min : Nat := 1
  max : Option Nat := some 1
deriving DecidableEq

namespace Occurs

def isUnbounded (o : Occurs) : Bool :=
  o.max.isNone

def display (o : Occurs) : String :=
  let max := match o.max with
    | some n => toString n
    | none => "∞"
  "[" ++ toString o.min ++ ".." ++ max ++ "]"

end Occurs

/-- A complex type; it is anonymous if it has no name. -/
structure ComplexType (π : Type) where
  name : Option QName := none
  documentation : Option String := none
  source : Option Location := none
  isAbstract : Bool := false
  mixed : Bool := false
  base : Option QName := none
  derivation : Option DerivationMethod := none
  /-- None stands for empty content. -/
  content : Option π := none
  /-- The attributes, with those of attribute groups in place of the references to them. -/
  attributes : List AttributeUse := []
  wildcard : Option Wildcard := none

inductive TypeDefinition (π : Type)
  | simple (t : SimpleType)
  | complex (t : ComplexType π)

namespace TypeDefinition

variable {π : Type}

def name : TypeDefinition π → Option QName
  | simple t => t.name
  | complex t => t.name

def documentation : TypeDefinition π → Option String
  | simple t => t.documentation
  | complex t => t.documentation

def source : TypeDefinition π → Option Location
  | simple t => t.source
  | complex t => t.source

def isSimple : TypeDefinition π → Bool
  | simple _ => true
  | complex _ => false

end TypeDefinition

/-- An element declared inside a content model. -/
structure LocalElement (π : Type) where
  name : String
  type : Option (TypeRef (TypeDefinition π)) := none
  nillable : Bool := false
  isAbstract : Bool := false
  defaultValue : Option String := none
  fixedValue : Option String := none

/-- An element in a content model. -/
inductive ElementUse (π : Type)
  | reference (name : QName) (nillable isAbstract : Bool)
  | declared (e : LocalElement π)

namespace ElementUse

variable {π : Type}

def display : ElementUse π → String
  | reference name _ _ => name.display
  | declared e => e.name

end ElementUse

structure ModelGroup (π : Type) where
  kind : Compositor
  particles : List π
deriving BEq

/-- What a particle admits. A named group is kept by its name. -/
inductive Term (π : Type)
  | element (e : ElementUse π)
  | wildcard (w : Wildcard)
  | group (name : QName)
  | model (g : ModelGroup π)

structure Particle where
  term : Term Particle
  occurs : Occurs := {}
  source : Option Location := none

mutual

def Particle.same : Particle → Particle → Bool
  | ⟨term, occurs, source⟩, ⟨term', occurs', source'⟩ =>
    Term.same term term' && occurs == occurs' && source == source'

def Term.same : Term Particle → Term Particle → Bool
  | .element (.reference name nillable isAbstract),
    .element (.reference name' nillable' isAbstract') =>
    name == name' && nillable == nillable' && isAbstract == isAbstract'
  | .element (.declared ⟨name, type, nillable, isAbstract, default, fixed⟩),
    .element (.declared ⟨name', type', nillable', isAbstract', default', fixed'⟩) =>
    name == name' && TypeDefinition.sameRef type type' && nillable == nillable'
      && isAbstract == isAbstract' && default == default' && fixed == fixed'
  | .wildcard w, .wildcard w' => w == w'
  | .group name, .group name' => name == name'
  | .model ⟨kind, particles⟩, .model ⟨kind', particles'⟩ =>
    kind == kind' && Particle.sameAll particles particles'
  | _, _ => false

def Particle.sameAll : List Particle → List Particle → Bool
  | [], [] => true
  | p :: ps, p' :: ps' => Particle.same p p' && Particle.sameAll ps ps'
  | _, _ => false

def Particle.sameContent : Option Particle → Option Particle → Bool
  | none, none => true
  | some p, some p' => Particle.same p p'
  | _, _ => false

def TypeDefinition.sameRef : Option (TypeRef (TypeDefinition Particle)) →
    Option (TypeRef (TypeDefinition Particle)) → Bool
  | none, none => true
  | some (.named name), some (.named name') => name == name'
  | some (.anonymous t), some (.anonymous t') => TypeDefinition.same t t'
  | _, _ => false

def TypeDefinition.same : TypeDefinition Particle → TypeDefinition Particle → Bool
  | .simple t, .simple t' => t == t'
  | .complex t, .complex t' => ComplexType.same t t'
  | _, _ => false

def ComplexType.same : ComplexType Particle → ComplexType Particle → Bool
  | ⟨name, documentation, source, isAbstract, mixed, base, derivation, content, uses, wildcard⟩,
    ⟨name', documentation', source', isAbstract', mixed', base', derivation', content', uses',
      wildcard'⟩ =>
    name == name' && documentation == documentation' && source == source'
      && isAbstract == isAbstract' && mixed == mixed' && base == base'
      && derivation == derivation' && Particle.sameContent content content' && uses == uses'
      && wildcard == wildcard'

end

instance : BEq Particle := ⟨Particle.same⟩

instance : BEq (TypeDefinition Particle) := ⟨TypeDefinition.same⟩

instance : BEq (ComplexType Particle) := ⟨ComplexType.same⟩

namespace Particle

/-- The particles right below a particle. -/
def children (p : Particle) : List Particle :=
  match p.term with
  | .model g => g.particles
  | _ => []

mutual

/-- The number of particles in a content model. -/
def size : Particle → Nat
  | ⟨.model ⟨_, particles⟩, _, _⟩ => 1 + sizeAll particles
  | _ => 1

def sizeAll : List Particle → Nat
  | [] => 0
  | p :: ps => size p + sizeAll ps

end

mutual

/-- The particles of a content model, each before those below it. -/
def preorder : Particle → List Particle
  | ⟨.model ⟨kind, particles⟩, occurs, source⟩ =>
    ⟨.model ⟨kind, particles⟩, occurs, source⟩ :: preorderAll particles
  | p => [p]

def preorderAll : List Particle → List Particle
  | [] => []
  | p :: ps => preorder p ++ preorderAll ps

end

private theorem sizeAll_append (ps qs : List Particle) :
    sizeAll (ps ++ qs) = sizeAll ps + sizeAll qs := by
  induction ps with
  | nil => simp [sizeAll]
  | cons p ps ih => simp [sizeAll, ih, Nat.add_assoc]

private theorem sizeAll_children_lt (p : Particle) : sizeAll p.children < p.size := by
  obtain ⟨term, occurs, source⟩ := p
  cases term <;> simp [children, size, sizeAll]

/-- The particles met when a stack is worked off: the children of each go on top. -/
def walk : List Particle → List Particle
  | [] => []
  | p :: stack =>
    have : sizeAll (p.children ++ stack) < sizeAll (p :: stack) := by
      have := sizeAll_children_lt p
      rw [sizeAll_append, sizeAll]
      omega
    p :: walk (p.children ++ stack)
termination_by stack => sizeAll stack

/-- The terms of a content model in document order. Types of local elements are not entered. -/
def terms (p : Particle) : List (Term Particle) :=
  (walk [p]).map (·.term)

end Particle

end XsdCatalog

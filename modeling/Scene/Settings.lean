import Scene.Scalar

/-! Settings of solving, resolving and writing. -/
namespace Scene.Settings
variable {α : Type} [Scalar α]

structure Solving (α : Type) where
  /-- Passes over the constraints before relaxation gives up. -/
  maxIterations : Nat
  epsilon : α
  exactFallback : Bool

structure Resolving (α : Type) where
  /-- Bound on chains of returned specs together with the nesting of children. -/
  maxDepth : Nat
  /-- Size fitted to where no container is known. -/
  container : α × α
  solving : Solving α

structure Writing where
  declaration : Bool
  indent : Bool
  classPrefix : Option String
  deriving DecidableEq, Repr

def Solving.standard : Solving α := ⟨100, Scalar.ofRat (1 / 1000000), true⟩
def Resolving.standard : Resolving α := ⟨64, (Scalar.ofNat 800, Scalar.ofNat 400), .standard⟩
def Writing.standard : Writing := ⟨true, true, some "viz-"⟩

def Writing.compact : Writing := ⟨false, false, none⟩

end Scene.Settings

namespace Scene

structure Settings (α : Type) where
  resolving : Settings.Resolving α
  writing : Settings.Writing

def Settings.standard {α : Type} [Scalar α] : Settings α := ⟨.standard, .standard⟩

end Scene

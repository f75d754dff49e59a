/-
The functions whose stack variables are instrumented. A tool tags them
before the optimizations (utils/tag_functions_with_opt_none), and the
pass reads the tags (AvoidLocalVariableInstrumentation.cpp of both).

The traversal is recursive. The model bounds the depth of the calls and
is `none` where the source would go deeper.
-/
import Carmot.Pass.CallGraph

namespace Carmot.Pass

variable {F : Type}

namespace TagFunctions

section Find

variable [DecidableEq F] (G : CallGraph F)

/-- `visit`. -/
def visit : Nat → F → List F → Option (List F)
  | 0, _, _ => none
  | depth + 1, currentNode, functions =>
      if currentNode ∈ functions then some functions
      else
        (G.incoming currentNode).foldlM (fun functions nextNode => visit depth nextNode functions)
          (functions ++ [currentNode])

/-- `getAllFunctions`. -/
def getAllFunctions (M : List F) (empty : F → Bool) : List F := M.filter fun f => !empty f

/-- `findFunctionsToInstrument` of the tool; a module need not have a
start tracking function. -/
def findFunctionsToInstrument (empty : F → Bool) (startTrackingFunction : Option F) (depth : Nat) :
    Option (List F) :=
  match startTrackingFunction with
  | none => some []
  | some startTrackingFunction =>
      (visit G depth startTrackingFunction []).map fun functions =>
        functions.filter fun function => !empty function

end Find

/-- What the tool and the pass read and write of a function: two
attributes and the `OPTIMIZE_LOCALS_KIND` metadata. -/
structure FunctionAttrs where
  noInline : Bool
  optimizeNone : Bool
  optimizeLocals : Bool
  deriving DecidableEq, Repr

/-- `tagFunctionOptNone` and `tagFunctionWithMetadata`. -/
def FunctionAttrs.tagFunction (_ : FunctionAttrs) : FunctionAttrs := ⟨true, true, true⟩

/-- `rmTagFunctionOptNone`. -/
def FunctionAttrs.rmTagFunction (a : FunctionAttrs) : FunctionAttrs := { a with optimizeNone := false }

section Tag

variable [DecidableEq F]

/-- `tagFunctionsOptNone`. -/
def tagFunctionsOptNone (functionsToTag : List F) (attrs : F → FunctionAttrs) :
    F → FunctionAttrs :=
  fun f => if f ∈ functionsToTag then (attrs f).tagFunction else (attrs f).rmTagFunction

/-- `runOnModule` of the tool; all functions are tagged if the option is
off (`MEMORYTOOL_DISABLE_LOCALS_OPT`). -/
def runOnModule (disableLocalsOpt : Bool) (G : CallGraph F) (M : List F) (empty : F → Bool)
    (startTrackingFunction : Option F) (depth : Nat) (attrs : F → FunctionAttrs) :
    Option (F → FunctionAttrs) :=
  let functionsToTag :=
    if disableLocalsOpt then some (getAllFunctions M empty)
    else findFunctionsToInstrument G empty startTrackingFunction depth
  functionsToTag.map fun functionsToTag => tagFunctionsOptNone functionsToTag attrs

end Tag

end TagFunctions

open TagFunctions (FunctionAttrs)

/-- `findFunctionsToInstrument` of the pass, with the attributes after
it. -/
def findFunctionsToInstrument (M : List F) (attrs : F → FunctionAttrs) :
    List F × (F → FunctionAttrs) :=
  (M.filter fun f => (attrs f).optimizeLocals,
    fun f => if (attrs f).optimizeLocals then (attrs f).rmTagFunction else attrs f)

end Carmot.Pass

import Categorial.Features.Vector
import Categorial.Lexicon.Basic
import Categorial.Fault

/-! # Models

A model gives every step of a derivation its features and a score, and knows a lexicon. A linear
model collects the features of several feature sets and weighs them.
-/

namespace Categorial

/-- What a model sees of a step. -/
structure StepView where
  rule : RuleName
  span : Span
  category : Category
  entry : Option LexicalEntry

structure Model (S : Type) where
  features : StepView → FeatureVector S
  score : FeatureVector S → S
  lexicon : EntrySource

/-- Adds the features that it finds in a step. -/
abbrev FeatureSet (S : Type) := StepView → FeatureVector S → FeatureVector S

namespace FeatureSet

variable {S : Type} [Scalar S]

def entryKey (entry : LexicalEntry) : String :=
  "LEX#" ++ entry.render

def originKey (origin : String) : String :=
  "ORIGIN#" ++ origin

/-- The key of a rule leaves out the unary rule folded into it. -/
def ruleKey (name : BaseName) : String :=
  "RULE#" ++ name.render

/-- One indicator per lexical entry and one per origin. -/
def lexical : FeatureSet S := fun step features =>
  match step.entry with
  | some entry =>
    (features.add (entryKey entry) Scalar.one).add (originKey entry.origin) Scalar.one
  | none => features

/-- One indicator per rule. A step with a unary rule folded into it counts both. -/
def ruleUsage (skipLexical : Bool) : FeatureSet S := fun step features =>
  let base := step.rule.base
  let features :=
    if skipLexical && (RuleName.plain base).isLexical then features
    else features.add (ruleKey base) Scalar.one
  match step.rule.unary with
  | some unary => features.add (ruleKey unary) Scalar.one
  | none => features

end FeatureSet

structure LinearModel (S : Type) where
  lexicon : Lexicon
  featureSets : List (FeatureSet S)
  weights : FeatureVector S

namespace LinearModel

variable {S : Type} [Scalar S]

/-- Features of entries and of rules other than the lexical one. -/
def withDefaultFeatures (lexicon : Lexicon) : LinearModel S :=
  ⟨lexicon, [FeatureSet.lexical, FeatureSet.ruleUsage true], .empty⟩

def setWeight (m : LinearModel S) (key : String) (value : S) : LinearModel S :=
  { m with weights := m.weights.set key value }

def features (m : LinearModel S) (step : StepView) : FeatureVector S :=
  m.featureSets.foldl (fun v featureSet => featureSet step v) .empty

def score (m : LinearModel S) (features : FeatureVector S) : S :=
  features.dot m.weights

def toModel (m : LinearModel S) : Model S :=
  ⟨m.features, m.score, .ofLexicon m.lexicon⟩

end LinearModel

end Categorial

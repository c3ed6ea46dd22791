import Soprano.Inference.Rule
import Soprano.Vocabulary

/-! `RuleSet`: the standard rule sets, as `rdfs.rules` and `nrl.rules` list them. -/

namespace Soprano

namespace Inference

namespace RuleSet

open Vocabulary

variable [Qt]

def resource (u : QUrl) : NodePattern := .resource (.ofUri u)

def type : NodePattern := resource RDF.type
def subClassOf : NodePattern := resource RDFS.subClassOf
def subPropertyOf : NodePattern := resource RDFS.subPropertyOf

def a : NodePattern := .ofVariable ['a']
def b : NodePattern := .ofVariable ['b']
def c : NodePattern := .ofVariable ['c']
def p : NodePattern := .ofVariable ['p']
def q : NodePattern := .ofVariable ['q']
def x : NodePattern := .ofVariable ['x']
def y : NodePattern := .ofVariable ['y']
def z : NodePattern := .ofVariable ['z']

/-- The rule of a line of a rule file. -/
def rule (preconditions : List StatementPattern) (effect : StatementPattern) : Rule :=
  ⟨preconditions, effect, .empty⟩

/-! ### `rdfs.rules` -/

def rdfs7b : Rule := rule [⟨a, type, resource RDFS.Class⟩] ⟨a, subClassOf, resource RDFS.Resource⟩
def rdfs2 : Rule := rule [⟨x, p, y⟩, ⟨p, resource RDFS.domain, c⟩] ⟨x, type, c⟩
def rdfs3 : Rule := rule [⟨x, p, y⟩, ⟨p, resource RDFS.range, c⟩] ⟨y, type, c⟩
def rdfs5a : Rule := rule [⟨a, subPropertyOf, b⟩, ⟨b, subPropertyOf, c⟩] ⟨a, subPropertyOf, c⟩
def rdfs5b : Rule := rule [⟨a, type, resource RDF.Property⟩] ⟨a, subPropertyOf, a⟩
def rdfs6 : Rule := rule [⟨a, p, b⟩, ⟨p, subPropertyOf, q⟩] ⟨a, q, b⟩
def rdfs7 : Rule := rule [⟨a, type, resource RDFS.Class⟩] ⟨a, subClassOf, a⟩
def rdfs8 : Rule := rule [⟨a, subClassOf, b⟩, ⟨b, subClassOf, c⟩] ⟨a, subClassOf, c⟩
def rdfs9 : Rule := rule [⟨x, subClassOf, y⟩, ⟨a, type, x⟩] ⟨a, type, y⟩
def rdfs10 : Rule := rule [⟨x, type, resource RDFS.ContainerMembershipProperty⟩]
  ⟨x, subPropertyOf, resource RDFS.member⟩

def rdfsRules : List Rule :=
  [rdfs7b, rdfs2, rdfs3, rdfs5a, rdfs5b, rdfs6, rdfs7, rdfs8, rdfs9, rdfs10]

/-! ### `nrl.rules` -/

/-- The prefix of the rule file, which is not the namespace of the NRL vocabulary. -/
def nrlPrefix : QUrl :=
  .ofString "http://www.semanticdesktop.org/ontologies/2007/08/15/nrl/" (by decide)

def TransitiveProperty : NodePattern := resource (nrlPrefix.extended "TransitiveProperty" (by decide))
def SymmetricProperty : NodePattern := resource (nrlPrefix.extended "SymmetricProperty" (by decide))
def inverseProperty : NodePattern := resource (nrlPrefix.extended "inverseProperty" (by decide))

def nrl1 : Rule := rule [⟨p, type, TransitiveProperty⟩, ⟨x, p, y⟩, ⟨y, p, z⟩] ⟨x, p, z⟩
def nrl2 : Rule := rule [⟨p, type, SymmetricProperty⟩, ⟨x, p, y⟩] ⟨y, p, x⟩
def nrl3 : Rule := rule [⟨a, inverseProperty, b⟩, ⟨x, a, y⟩] ⟨y, b, x⟩

def nrlRules : List Rule := [nrl1, nrl2, nrl3]

end RuleSet

end Inference

end Soprano

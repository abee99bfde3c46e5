import Cheshire.Srw.PyStr

/-!
# CQL queries

A query is a tree of search clauses and of triples of two operands and a boolean.  Every node may
carry a dictionary of prefixes.
-/

namespace Cheshire.Srw

/-- The dictionary of a node: the identifiers of prefixes. -/
abbrev Prefixes := AList fun _ : PyStr ↦ PyStr

structure Relation where
  value : PyStr
  modifiers : List PyStr
deriving DecidableEq

structure Boolean where
  value : PyStr
  modifiers : List PyStr
deriving DecidableEq

structure SearchClause where
  prefixes : Prefixes
  index : PyStr
  relation : Relation
  term : PyStr

inductive CqlQuery where
  | searchClause (clause : SearchClause)
  | triple (prefixes : Prefixes) (leftOperand : CqlQuery) (boolean : Boolean) (rightOperand : CqlQuery)

/-- The relation of a clause that has no index. -/
def serverChoiceRelation : PyStr := ['s', 'c', 'r']

def CqlQuery.prefixes : CqlQuery → Prefixes
  | searchClause clause => clause.prefixes
  | triple prefixes _ _ _ => prefixes

end Cheshire.Srw

import NestedStyles.Selector.Reading

/-!
# Names and attributes in selectors

A name may follow a namespace and a bar. There are no named namespaces: only `*` or nothing may
stand in front of the bar. `readAttribute` reads what stands between square brackets.
-/

namespace NestedStyles.Selector

open Css

/-- A name with a namespace. `anyNamespace` is false only for a name with a bar and nothing in front
of it. There is no name for a `*`. -/
structure QualifiedName where
  anyNamespace : Bool
  name : Option String

/-- The name after the bar. Nothing but a name may stand there, or a `*` if `star` allows it. -/
def readLocalName (star anyNamespace : Bool) : List Part → Reading (Option QualifiedName)
  | [] => ⟨.error (.cutOff .afterBar), []⟩
  | p :: rest =>
    match p.token with
    | .ident name => ⟨.ok (some ⟨anyNamespace, some name⟩), rest⟩
    | t =>
      if star && t.isLiteral "*" then ⟨.ok (some ⟨anyNamespace, none⟩), rest⟩
      else .reject (.noLocalName t) rest

/-- The name at the start, if there is one. There are no namespaces that could be named. -/
def readQualifiedName (star : Bool) : List Part → Reading (Option QualifiedName)
  | ⟨.ident name, _⟩ :: ⟨.literal "|", _⟩ :: rest => .reject (.undefinedNamespace name) rest
  | ⟨.ident name, _⟩ :: rest => ⟨.ok (some ⟨true, some name⟩), rest⟩
  | ⟨.literal "*", _⟩ :: ⟨.literal "|", _⟩ :: rest => readLocalName star true rest
  | ⟨.literal "*", _⟩ :: rest =>
    if star then ⟨.ok (some ⟨true, none⟩), rest⟩ else .reject (.noLocalName (.literal "*")) rest
  | ⟨.literal "|", _⟩ :: rest => readLocalName star false rest
  | ps => ⟨.ok none, ps⟩

theorem length_readLocalName (star anyNamespace : Bool) (ps : List Part) :
    (readLocalName star anyNamespace ps).rest.length ≤ ps.length := by
  unfold readLocalName
  repeat' split
  all_goals simp [Reading.reject]

/-- A reader of a name takes a part or finds none. -/
theorem readQualifiedName_takes (star : Bool) (ps : List Part) :
    (readQualifiedName star ps).rest.length < ps.length ∨
      readQualifiedName star ps = ⟨.ok none, ps⟩ := by
  unfold readQualifiedName
  split
  · exact .inl (by simp only [Reading.reject, List.length_cons]; omega)
  · exact .inl (by simp)
  · exact .inl (by
      have := length_readLocalName star true (by assumption)
      simp only [List.length_cons]
      omega)
  · exact .inl (by split <;> simp [Reading.reject])
  · exact .inl (by
      have := length_readLocalName star false (by assumption)
      simp only [List.length_cons]
      omega)
  · exact .inr rfl

/-- What follows the value of an attribute: nothing, or a flag for the case of letters. -/
def endAttribute (s : Simple) (ts : List Token) : Except Failure Simple :=
  match significant ts with
  | [] => .ok s
  | .ident flag :: _ =>
    let letters := flag.toList.map Char.toLower
    if letters == ['i'] || letters == ['s'] then .ok s
    else .error (.rejected (.attributeLeftover (.ident flag)))
  | t :: _ => .error (.rejected (.attributeLeftover t))

/-- The value an attribute is compared with. -/
def readAttributeValue (name : String) (comparison : Comparison) (ts : List Token) :
    Except Failure Simple :=
  match significant ts with
  | .ident value :: rest => endAttribute (.attribute name (some (comparison, value))) rest
  | .string value _ :: rest => endAttribute (.attribute name (some (comparison, value))) rest
  | found => .error (.rejected (.noAttributeValue found.head?))

/-- What follows the name of an attribute. -/
def readAttributeTest (name : String) (ts : List Token) : Except Failure Simple :=
  match significant ts with
  | [] => .ok (.attribute name none)
  | .literal mark :: rest =>
    match Comparison.ofMark? mark with
    | some comparison => readAttributeValue name comparison rest
    | none => .error (.rejected (.noComparison (.literal mark)))
  | t :: _ => .error (.rejected (.noComparison t))

/-- What is written between square brackets. -/
def readAttribute (ts : List Token) : Except Failure Simple := do
  let r := readQualifiedName false ((significant ts).map .plain)
  match ← r.outcome with
  | none => throw (.rejected (.noAttributeName (peek r.rest)))
  | some qualified => readAttributeTest (qualified.name.getD "") (r.rest.map Part.token)

end NestedStyles.Selector

namespace EstreeLowering

/-- Names are matched without regard to the case of ASCII letters. -/
def sameName (name other : String) : Bool :=
  name.toList.map Char.toLower == other.toList.map Char.toLower

/-- The first of `candidates` whose name is `query`. -/
def findNamed? (nameOf : α → String) (candidates : List α) (query : String) : Option α :=
  candidates.find? fun candidate => sameName (nameOf candidate) query

end EstreeLowering

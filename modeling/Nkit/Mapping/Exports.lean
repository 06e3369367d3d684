import Nkit.Mapping.ShapedValues

/-! What is exported with `Var2Xml` is imported again with `DynamicFromXml` and the mapping of its
shape. -/

namespace Nkit
namespace Xml2Var
open OrderedMap XmlGrammar Converter

section
variable {names : NameTable} {lib : ScalarLib} {texts : TextLib} {ro : StructOptions}
  {o : ConverterOptions}

theorem HasShape.attrkey {shape : Shape} {v : DynTree} (h : HasShape names lib texts ro o shape v)
    (hattrs : attrTexts texts o v ≠ []) : ro.attrkey = o.attrKey := by
  cases h with
  | leaf h => cases h <;> exact absurd rfl hattrs
  | list => exact absurd rfl hattrs
  | record hsorted hrecord =>
    rcases attrTexts_dict texts hsorted hrecord with ⟨-, htexts⟩ | ⟨attrs, -, hvalues, -⟩
    · exact absurd htexts hattrs
    · exact hvalues.key

end

def personSettings : ConverterSettings :=
  ⟨⟨some (ascii "person"), none, none, none, some (ascii "1.0"), none, some (ascii " "),
    some (ascii "\n"), [ascii "name"], [], [], [ascii "pet"]⟩, none, none, none, none, none⟩

def personOptions : ConverterOptions :=
  { toVar2XmlOptions := { Var2XmlOptions.create personSettings.toVar2XmlSettings with
    xmlDec := personSettings.xmlDec }
    transcoder := none
    floatPrecision := 2
    dateTimeFormat := ascii "%Y-%m-%d %H:%M:%S"
    boolTrue := ascii "1"
    boolFalse := ascii "0" }

end Xml2Var
end Nkit

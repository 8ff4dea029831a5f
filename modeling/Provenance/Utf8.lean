/-!
The bytes of a text in UTF-8.
-/
namespace Provenance

def utf8 (s : String) : List UInt8 := s.toByteArray.data.toList

end Provenance

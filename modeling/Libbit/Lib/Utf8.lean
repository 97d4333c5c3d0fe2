import Libbit.Lib.Text

/-! Texts as bytes. The encoding is that of the core library. -/
namespace Libbit
namespace Lib

/-- `str::as_bytes` -/
def encodeUtf8 (s : List Char) : List (Fin 256) := s.flatMap fun c => (String.utf8EncodeChar c).map UInt8.toFin

/-- `str::from_utf8` -/
def decodeUtf8 (bs : List (Fin 256)) : Option (List Char) :=
  (ByteArray.mk (bs.map UInt8.ofFin).toArray).utf8Decode?.map Array.toList

theorem encodeUtf8_append (s t : List Char) : encodeUtf8 (s++t) = encodeUtf8 s++encodeUtf8 t := List.flatMap_append

theorem encodeUtf8_cons (c : Char) (s : List Char) : encodeUtf8 (c::s) = encodeUtf8 [c]++encodeUtf8 s :=
  encodeUtf8_append [c] s

theorem length_encodeUtf8 (s : List Char) : (encodeUtf8 s).length = utf8Len s := by
  simp only [encodeUtf8,List.length_flatMap,List.length_map,String.length_utf8EncodeChar]
  rfl

theorem bytes_encodeUtf8 (s : List Char) : ByteArray.mk ((encodeUtf8 s).map UInt8.ofFin).toArray = s.utf8Encode := by
  have hmap : (encodeUtf8 s).map UInt8.ofFin = s.flatMap String.utf8EncodeChar := by
    simp only [encodeUtf8,List.map_flatMap,List.map_map]
    exact congrArg (s.flatMap ·) (funext fun c => (List.map_congr_left fun b _ => rfl).trans (List.map_id _))
  rw [hmap,List.utf8Encode]
  apply ByteArray.ext
  simp

theorem decodeUtf8_cons (c : Char) (bs : List (Fin 256)) :
    decodeUtf8 (encodeUtf8 [c]++bs) = (decodeUtf8 bs).map (c::·) := by
  have hbytes : ByteArray.mk ((encodeUtf8 [c]++bs).map UInt8.ofFin).toArray =
      [c].utf8Encode++ByteArray.mk (bs.map UInt8.ofFin).toArray := by
    rw [← bytes_encodeUtf8]
    apply ByteArray.ext
    simp
  rw [decodeUtf8,hbytes,ByteArray.utf8Decode?_utf8Encode_singleton_append,decodeUtf8,Option.map_map,Option.map_map]
  exact congrArg (Option.map · _) (funext fun t => by simp)

/-- What starts with a text is decoded to a text that starts with it. -/
theorem decodeUtf8_append (s : List Char) (bs : List (Fin 256)) :
    decodeUtf8 (encodeUtf8 s++bs) = (decodeUtf8 bs).map (s++·) := by
  induction s with
  | nil => exact (congrFun Option.map_id (decodeUtf8 bs)).symm
  | cons c s ih =>
    rw [encodeUtf8_cons,List.append_assoc,decodeUtf8_cons,ih,Option.map_map]
    rfl

theorem decodeUtf8_encodeUtf8 (s : List Char) : decodeUtf8 (encodeUtf8 s) = some s := by
  have hnil : decodeUtf8 [] = some [] := by decide
  rw [← List.append_nil (encodeUtf8 s),decodeUtf8_append,hnil,Option.map_some,List.append_nil]

end Lib
end Libbit

import RetroScript.Video.Memory

/-! The shown picture as bytes: three for each physical pixel, and the file format around them. -/
namespace RetroScript.Video

/-- Red, green and blue. -/
abbrev Rgb := UInt8 × UInt8 × UInt8

def palette : Vector Rgb 16 := #v[
  (0x00, 0x00, 0x00), (0xff, 0xff, 0xff), (0x88, 0x20, 0x00), (0x68, 0xd0, 0xa8),
  (0xa8, 0x38, 0xa0), (0x50, 0xb8, 0x18), (0x18, 0x10, 0x90), (0xf0, 0xe8, 0x58),
  (0xa0, 0x48, 0x00), (0x47, 0x2b, 0x1b), (0xc8, 0x78, 0x70), (0x48, 0x48, 0x48),
  (0x80, 0x80, 0x80), (0x98, 0xff, 0x98), (0x50, 0x90, 0xd0), (0xb8, 0xb8, 0xb8)]

/-- Appends the three bytes of a color. -/
def pushColor (bytes : ByteArray) (c : Color) : ByteArray :=
  let rgb := palette[c]
  ((bytes.push rgb.1).push rgb.2.1).push rgb.2.2

/-- The bytes of the shown picture, pixel by pixel and row by row. -/
def Memory.frame (m : Memory) : ByteArray := m.shown.foldl pushColor ByteArray.empty

/-- What stands before the bytes in a picture file. -/
def fileHeader : String := "P6\n" ++ toString width ++ " " ++ toString height ++ "\n255\n"

/-- The shown picture as a picture file. -/
def Memory.file (m : Memory) : ByteArray := fileHeader.toUTF8 ++ m.frame

end RetroScript.Video

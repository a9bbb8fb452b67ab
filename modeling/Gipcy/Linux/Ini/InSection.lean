import Gipcy.Linux.Ini.Rounds

/-! Whether the value that the reader finds stands in the section. After the first
line that `FindSection` accepts, the reader does not look at headers. -/
namespace Gipcy.Linux.Ini

open CString Lines

section Headers

variable {app l : Str} {lines : List Str} {str : List UInt8}

end Headers

section Call

variable {app key : Str} {lpDefault : Option Str} {out : Nat → UInt8} {nSize : Int}
  {file str : List UInt8} {ahead passed rest : List Str} {opener l : Str}

end Call

section Claims

end Claims

end Gipcy.Linux.Ini

import EmbeddedShell.CString

/-! The blocking serial driver of `Uart.hpp`. A call is described by the bytes it
transmits; the HAL is assumed to send all of what it is given. -/
namespace EmbeddedShell
namespace Uart

open CString

/-- `print` transmits `strlen(s)` bytes. -/
def print (s : Bytes) : Bytes := cstr s

def println (s : Bytes) : Bytes := print s ++ print (chars "\r\n")

/-- `printf` formats into 256 bytes on the stack before it prints. -/
def printf (text : Bytes) : Bytes := print (text.take 255)

theorem print_of_nulFree {s : Bytes} (h : NulFree s) : print s = s := cstr_of_nulFree h

theorem println_of_nulFree {s : Bytes} (h : NulFree s) : println s = s ++ chars "\r\n" := by
  rw [println,print_of_nulFree h]
  rfl

end Uart
end EmbeddedShell

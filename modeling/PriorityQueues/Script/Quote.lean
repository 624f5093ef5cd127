/-!
Quoted names in messages, with escapes for characters that do not show as themselves.
-/

namespace PriorityQueues.Script

def isHidden (c : Char) : Bool :=
  let n := c.toNat
  n < 0x20 || (0x7F ≤ n && n < 0xA0) || n == 0xAD ||
  (0x300 ≤ n && n < 0x370) || (0x483 ≤ n && n < 0x48A) || (0x591 ≤ n && n < 0x5BE) ||
  n == 0x600 || n == 0x601 || n == 0x602 || n == 0x603 || n == 0x604 || n == 0x605 ||
  n == 0x61C || n == 0x6DD || n == 0x70F || n == 0x1680 || n == 0x180E ||
  (0x1AB0 ≤ n && n < 0x1B00) || (0x1DC0 ≤ n && n < 0x1E00) ||
  (0x2000 ≤ n && n < 0x2010) || (0x2028 ≤ n && n < 0x2030) || (0x205F ≤ n && n < 0x2070) ||
  (0x20D0 ≤ n && n < 0x2100) || n == 0x3000 || (0xD800 ≤ n && n < 0xF900) ||
  (0xFE00 ≤ n && n < 0xFE10) || (0xFE20 ≤ n && n < 0xFE30) || n == 0xFEFF ||
  (0xFFF0 ≤ n && n < 0xFFFC) || n == 0xFFFE || n == 0xFFFF ||
  (0xE0000 ≤ n && n < 0xE1000) || 0xF0000 ≤ n

def hexDigits (n : Nat) : List Char :=
  (Nat.toDigits 16 n)

def quoteChar (c : Char) : List Char :=
  if c = '\x00' then ['\\', '0']
  else if c = '\t' then ['\\', 't']
  else if c = '\r' then ['\\', 'r']
  else if c = '\n' then ['\\', 'n']
  else if c = '\\' then ['\\', '\\']
  else if c = '"' then ['\\', '"']
  else if isHidden c then ['\\', 'u', '\x7b'] ++ hexDigits c.toNat ++ ['\x7d']
  else [c]

def quoteName (s : String) : String :=
  String.ofList ('"' :: s.toList.flatMap quoteChar ++ ['"'])

end PriorityQueues.Script

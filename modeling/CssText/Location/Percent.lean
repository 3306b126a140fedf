import CssText.Bytes

/-!
# Percent encoding

A percent sign with two hexadecimal digits stands for a byte. Any other percent sign stands
for itself, and a decoded byte is not decoded again.
-/

namespace CssText
namespace Percent

def decode : Bytes → Bytes
  | b :: high :: low :: rest =>
      if b = Byte.percent && isHexDigit high && isHexDigit low then
        UInt8.ofNat (hexDigitValue high * 16 + hexDigitValue low) :: decode rest
      else
        b :: decode (high :: low :: rest)
  | bs => bs

end Percent
end CssText

import SealedText.Cipher.Aes
import SealedText.Cipher.Engine
import SealedText.Cipher.Serpent
import SealedText.Cipher.Twofish

/-!
# The standard cascade

AES, then Twofish, then Serpent, each with a 256-bit key: the engine of every message.
-/

namespace SealedText.Engine

def standard : Engine :=
  .cascade (.ofCipher Aes.cipher) (.ofCipher Twofish.cipher) (.ofCipher Serpent.cipher) none

theorem chain_standard :
    chain (.ofCipher Aes.cipher) (.ofCipher Twofish.cipher) (.ofCipher Serpent.cipher) =
      .ok standard := rfl

end SealedText.Engine

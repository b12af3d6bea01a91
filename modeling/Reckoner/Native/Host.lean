import Reckoner.Context.Basic
import Reckoner.Native.Streamed
import Reckoner.Number.Hardware

/-!
The machine at hand. Only programs that run are tied to it; whatever is known about compiling is known
for every platform.
-/
namespace Reckoner

def Platform.host : Platform where
  target := .streamed .hardware 64
  pageSize := ⟨4096, by decide⟩
  refuses _ _ := false

end Reckoner

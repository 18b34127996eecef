/-!
# Name and release
-/

namespace Mvcc

def name : String := "graphview"

def release : String := "0.0.1"

end Mvcc
